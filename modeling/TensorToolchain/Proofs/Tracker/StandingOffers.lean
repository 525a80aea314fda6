import TensorToolchain.Proofs.Tracker.Matching
import TensorToolchain.Proofs.Tracker.Receivers

/-!
# Standing offers

An offer that is free lies in the scheduler of its key, and its match key is among those that its
owner awaits. `Consistent` says how the two agree, and that the owner is open. Handing offers out
keeps this, whatever the connections that bid do with the replies.
-/

namespace TensorToolchain.Tracker

open List Server Json

variable {o' : Offer} {k' : String} {b : Bid Number.Scalar Nat} {f : Connection → Connection}

section Strings

variable {j : Json} {js : List Json} {k : String}

lemma beq_str : (j == .str k) ↔ j = .str k := by
  change agree _ j (.str k) ↔ _
  cases j <;> simp [agree]

lemma str_beq : (.str k == j) ↔ j = .str k := by
  change agree _ (.str k) j ↔ _
  cases j with
  | str m => rw [agree, beq_iff_eq, str.injEq, eq_comm]
  | _ => simp [agree]

lemma contains_str : js.contains (.str k) ↔ .str k ∈ js := by
  rw [contains_eq_any_beq, any_eq_true]
  simp only [str_beq, exists_eq_right]

lemma mem_erase_str (hjs : js.Nodup) : j ∈ js.erase (.str k) ↔ j ≠ .str k ∧ j ∈ js := by
  induction js with
  | nil => simp
  | cons x xs ih =>
    rw [nodup_cons] at hjs
    rw [erase_cons]
    by_cases hx : x = .str k
    · subst hx
      rw [if_pos (beq_str.2 rfl), mem_cons]
      constructor
      · exact fun hj => ⟨fun e => hjs.1 (e ▸ hj), .inr hj⟩
      · exact fun hj => hj.2.resolve_left hj.1
    · rw [if_neg fun e => hx (beq_str.1 e), mem_cons, mem_cons, ih hjs.2]
      constructor
      · rintro (rfl | ⟨hne, hj⟩)
        · exact ⟨hx, .inl rfl⟩
        · exact ⟨hne, .inr hj⟩
      · rintro ⟨hne, rfl | hj⟩
        · exact .inl rfl
        · exact .inr ⟨hne, hj⟩

lemma exists_str_of_poolKey (h : poolKey j = .ok k) : ∃ m, j = .str m := by
  cases j with
  | str m => exact ⟨m, rfl⟩
  | _ => cases h

end Strings

/-! ### The scheduler of a key -/

namespace Server

variable {s : Server} {key : Json} {pool : Pool} {k : String} {p : Json × Pool}

lemma pool_setPool (s : Server) (key : Json) (pool : Pool) (k : String) :
    (s.setPool key pool).pool (.str k) = if key = .str k then pool else s.pool (.str k) := by
  rw [setPool]
  split
  · rename_i hany
    have hfnd : (s.pools.map fun p => if p.1 == key then (p.1, pool) else p).find? (·.1 == .str k) =
        (s.pools.find? (·.1 == .str k)).map fun p => if p.1 == key then (p.1, pool) else p := by
      rw [find?_map]
      congr 2
      funext p
      rw [Function.comp]
      split <;> rfl
    rw [Server.pool, Server.pool, hfnd]
    cases hp : s.pools.find? (·.1 == .str k) with
    | none =>
      have hne : key ≠ .str k := by
        rintro rfl
        obtain ⟨p, hmem, hkey⟩ := any_eq_true.1 hany
        exact find?_eq_none.1 hp p hmem hkey
      rw [if_neg hne]
      rfl
    | some p =>
      have hfn := find?_some hp
      have hkey : p.1 = .str k := beq_str.1 hfn
      by_cases h : key = .str k
      · subst h
        simp only [Option.map_some, hfn, if_true]
      · have hot : (p.1 == key) = false := by
          rw [← Bool.not_eq_true, hkey, str_beq]
          exact h
        simp [hot, h]
  · rename_i hany
    have hold (h : key = .str k) : s.pools.find? (·.1 == .str k) = none := by
      subst h
      simpa [find?_eq_none] using hany
    rw [Server.pool, Server.pool, find?_append]
    by_cases h : key = .str k
    · simp [hold h, h, beq_str.2]
    · have hot : (key == .str k) = false := by
        rw [← Bool.not_eq_true, beq_str]
        exact h
      cases s.pools.find? (·.1 == .str k) <;> simp [hot, h]

lemma mem_pools_setPool (hp : p ∈ (s.setPool key pool).pools) :
    p ∈ s.pools ∧ (p.1 == key) = false ∨ (p.1 = key ∨ (p.1 == key)) ∧ p.2 = pool := by
  rw [setPool] at hp
  split_ifs at hp with hany
  · obtain ⟨q, hq, rfl⟩ := mem_map.1 hp
    by_cases hkey : (q.1 == key)
    · rw [if_pos hkey]
      exact .inr ⟨.inr hkey, rfl⟩
    · rw [if_neg hkey]
      exact .inl ⟨hq, Bool.not_eq_true _ ▸ hkey⟩
  · rcases mem_snoc.1 hp with hold | rfl
    · refine .inl ⟨hold, ?_⟩
      by_contra hkey
      exact hany (any_eq_true.2 ⟨p, hold, by simpa using hkey⟩)
    · exact .inr ⟨.inl rfl, rfl⟩

lemma setPool_setPool (s : Server) (k : String) (pool pool' : Pool) :
    (s.setPool (.str k) pool).setPool (.str k) pool' = s.setPool (.str k) pool' := by
  have hsl : (str k == .str k) := beq_str.2 rfl
  by_cases hany : (s.pools.any (·.1 == .str k)) = true
  · have han' : ((s.setPool (.str k) pool).pools.any (·.1 == .str k)) = true := by
      rw [setPool, if_pos hany]
      simpa [Function.comp_def, apply_ite Prod.fst] using hany
    rw [setPool, if_pos han', setPool, if_pos hany, setPool, if_pos hany, map_map]
    congr 1
    refine map_congr_left fun p _ => ?_
    by_cases hp : (p.1 == .str k) = true <;> simp [hp]
  · have han' : ((s.setPool (.str k) pool).pools.any (·.1 == .str k)) = true := by
      rw [setPool, if_neg hany]
      simp [hsl]
    have hsm : (s.pools.map fun p => if p.1 == .str k then (p.1, pool') else p) = s.pools := by
      conv_rhs => rw [← map_id s.pools]
      refine map_congr_left fun p hp => ?_
      rw [if_neg fun e => hany (any_eq_true.2 ⟨p, hp, e⟩), id]
    rw [setPool, setPool, if_neg hany, setPool, if_neg hany]
    simp [hsm, hsl]

lemma setPool_of_pools_eq {t : Server} (h : t.pools = s.pools) (key : Json) (pool : Pool) :
    t.setPool key pool = { t with pools := (s.setPool key pool).pools } := by
  rw [setPool, setPool, h]
  split <;> rfl

section

variable (s : Server) (key : Json) (pool : Pool)

@[simp] lemma connections_setPool : (s.setPool key pool).connections = s.connections := by
  rw [setPool]
  split <;> rfl

@[simp] lemma connection_setPool (c : Nat) : (s.setPool key pool).connection c = s.connection c := by
  rw [connection, connections_setPool, connection]

@[simp] lemma calls_setPool : (s.setPool key pool).calls = s.calls := by
  rw [setPool]
  split <;> rfl

end

def HasPool (s : Server) (k : String) : Prop := ∃ p ∈ s.pools, p.1 = .str k

lemma hasPool_setPool_self (s : Server) (k : String) (pool : Pool) : (s.setPool (.str k) pool).HasPool k := by
  rw [setPool]
  split_ifs with hany
  · obtain ⟨p, hp, hkey⟩ := any_eq_true.1 hany
    exact ⟨(p.1, pool), mem_map.2 ⟨p, hp, if_pos hkey⟩, beq_str.1 hkey⟩
  · exact ⟨(.str k, pool), by simp, rfl⟩

lemma HasPool.setPool (h : s.HasPool k) (key : Json) (pool : Pool) : (s.setPool key pool).HasPool k := by
  obtain ⟨p, hp, hk⟩ := h
  rw [Server.setPool]
  split
  · refine ⟨_, mem_map_of_mem hp, ?_⟩
    split <;> exact hk
  · exact ⟨p, by simp [hp], hk⟩

lemma pool_mem_or (s : Server) (key : Json) : (∃ p ∈ s.pools, (p.1 == key) ∧ s.pool key = p.2) ∨ s.pool key = {} := by
  rw [pool]
  cases hp : s.pools.find? (·.1 == key) with
  | none => exact .inr rfl
  | some p =>
    have hkey := find?_some hp
    exact .inl ⟨p, mem_of_find?_eq_some hp, hkey, rfl⟩

/-- A change of one connection leaves every connection as it is or changes it. -/
lemma connection_update_or (s : Server) (c : Nat) (f : Connection → Connection) (c' : Nat) :
    (s.update c f).connection c' = s.connection c' ∨ c = c' ∧ (s.update c f).connection c' = f (s.connection c') := by
  by_cases hc : c = c'
  · subst hc
    by_cases hlt : c < s.connections.length
    · exact .inr ⟨rfl, connection_update_self hlt f⟩
    · exact .inl (by simp [connection, update, hlt])
  · exact .inl (connection_update_of_ne s hc f)

/-- What a change of a connection leaves alone in it stays in all of them. -/
lemma field_update {α : Type} (g : Connection → α) (h : ∀ x, g (f x) = g x) (s : Server) (c c' : Nat) :
    g ((s.update c f).connection c') = g (s.connection c') := by
  rcases s.connection_update_or c f c' with e | ⟨-, e⟩
  · rw [e]
  · rw [e, h]

def isOpen (s : Server) (c : Nat) : Bool := (s.connection c).outbox.isOpen

def free (s : Server) (k : String) : List Offer := (s.pool (.str k)).free

lemma isOpen_update (h : ∀ x, (f x).outbox = x.outbox) (s : Server) (c c' : Nat) :
    (s.update c f).isOpen c' = s.isOpen c' :=
  field_update (·.outbox.isOpen) (fun x => congrArg Outbox.isOpen (h x)) s c c'

@[simp] lemma isOpen_setPool (s : Server) (key : Json) (pool : Pool) (c : Nat) :
    (s.setPool key pool).isOpen c = s.isOpen c := by
  rw [isOpen, connection_setPool, isOpen]

lemma free_setPool (s : Server) (key : Json) (pool : Pool) (k : String) :
    (s.setPool key pool).free k = if key = .str k then pool.free else s.free k := by
  rw [free, pool_setPool]
  split <;> rfl

/-- Free offers lie in schedulers of strings that are found under their keys. -/
def Named (s : Server) : Prop := ∀ p ∈ s.pools, p.2.free ≠ [] → ∃ k, p.1 = .str k ∧ s.pool (.str k) = p.2

lemma Named.setPool (h : s.Named) (hkey : pool.free ≠ [] → ∃ k, key = .str k) : (s.setPool key pool).Named := by
  intro p hp hfr
  rcases mem_pools_setPool hp with ⟨hold, hne⟩ | ⟨hsm, rfl⟩
  · obtain ⟨k, hk, hpl⟩ := h p hold hfr
    refine ⟨k, hk, ?_⟩
    rw [pool_setPool, if_neg, hpl]
    rintro rfl
    rw [beq_str.2 hk] at hne
    cases hne
  · obtain ⟨k, rfl⟩ := hkey hfr
    exact ⟨k, hsm.elim id beq_str.1, by rw [pool_setPool, if_pos rfl]⟩

lemma Named.exists_str (h : s.Named) (hfr : (s.pool key).free ≠ []) : ∃ k, key = .str k := by
  rcases s.pool_mem_or key with ⟨p, hp, hkey, hpl⟩ | hno
  · rw [hpl] at hfr
    obtain ⟨k, hk, -⟩ := h p hp hfr
    rw [hk, str_beq] at hkey
    exact ⟨k, hkey⟩
  · rw [hno] at hfr
    exact absurd rfl hfr

end Server

/-! ### How offers are kept -/

/-- Offers are filed under their keys. No connection of which `bidder` holds has any, and only such
connections bid. -/
structure Filed (bidder : Nat → Prop) (s : Server) : Prop where
  named : s.Named
  key : ∀ k, ∀ o ∈ s.free k, poolKey o.matchKey = .ok k
  distinct : ∀ k, ((s.free k).map Offer.matchKey).Nodup
  apart : ∀ k, ∀ o ∈ s.free k, ¬ bidder o.owner
  bids : ∀ p ∈ s.pools, ∀ b ∈ p.2.bids, bidder b.holder
  nodup : ∀ c, (s.connection c).matchKeys.Nodup
  offers : ∀ c, ∀ o ∈ (s.connection c).offers, o.owner = c ∧ ¬ bidder c ∧
    (s.connection c).info.contains "key" = true ∧ ∃ k, poolKey o.matchKey = .ok k ∧ s.HasPool k

/-- Offers are filed, those that are free belong to open connections or are about to be withdrawn,
and what an open connection awaits are the match keys of its free offers. -/
structure Consistent (bidder : Nat → Prop) (leaving : List Offer) (s : Server) : Prop extends Filed bidder s where
  isOpen : ∀ k, ∀ o ∈ s.free k, s.isOpen o.owner = true ∨ o ∈ leaving
  awaited : ∀ c, s.isOpen c = true → ∀ j,
    j ∈ (s.connection c).matchKeys ↔ ∃ k, ∃ o ∈ s.free k, o.owner = c ∧ o.matchKey = j

/-- What a tracker keeps of its offers while connections are written to: the schedulers and all that
connections know of offers stay, and no connection opens. -/
structure Continues (s t : Server) : Prop where
  pools : t.pools = s.pools
  matchKeys : ∀ c, (t.connection c).matchKeys = (s.connection c).matchKeys
  offers : ∀ c, (t.connection c).offers = (s.connection c).offers
  info : ∀ c, (s.connection c).info.contains "key" = true → (t.connection c).info.contains "key" = true
  isOpen : ∀ c, t.isOpen c = true → s.isOpen c = true

namespace Continues

variable {s t u : Server}

lemma refl (s : Server) : Continues s s := ⟨rfl, fun _ => rfl, fun _ => rfl, fun _ => id, fun _ => id⟩

lemma trans (h : Continues s t) (h' : Continues t u) : Continues s u where
  pools := h'.pools.trans h.pools
  matchKeys c := (h'.matchKeys c).trans (h.matchKeys c)
  offers c := (h'.offers c).trans (h.offers c)
  info c := h'.info c ∘ h.info c
  isOpen c := h.isOpen c ∘ h'.isOpen c

lemma update (s : Server) (c : Nat) (hks : ∀ x, (f x).matchKeys = x.matchKeys) (hof : ∀ x, (f x).offers = x.offers)
    (hin : (s.connection c).info.contains "key" = true → (f (s.connection c)).info.contains "key" = true)
    (hop : (f (s.connection c)).outbox.isOpen → s.isOpen c) : Continues s (s.update c f) := by
  refine ⟨rfl, field_update _ hks s c, field_update _ hof s c, fun c' h => ?_, fun c' h => ?_⟩
  · rcases s.connection_update_or c f c' with e | ⟨rfl, e⟩
    · rwa [e]
    · rw [e]
      exact hin h
  · rcases s.connection_update_or c f c' with e | ⟨rfl, e⟩
    · rwa [Server.isOpen, e] at h
    · rw [Server.isOpen, e] at h
      exact hop h

lemma pool_eq (h : Continues s t) (key : Json) : t.pool key = s.pool key := by rw [pool, pool, h.pools]

lemma free_eq (h : Continues s t) (k : String) : t.free k = s.free k := by rw [free, free, h.pool_eq]

end Continues

section Changes

variable {bidder : Nat → Prop} {leaving leaving' : List Offer} {s t : Server} {key : Json} {pool : Pool} {k : String}
  {o : Offer} {c : Nat}

lemma Filed.of_continues (h : Filed bidder s) (ht : Continues s t) : Filed bidder t where
  named p hp hfr := by
    rw [ht.pools] at hp
    simpa only [ht.pool_eq] using h.named p hp hfr
  key k o ho := h.key k o (ht.free_eq k ▸ ho)
  distinct k := ht.free_eq k ▸ h.distinct k
  apart k o ho := h.apart k o (ht.free_eq k ▸ ho)
  bids p hp := h.bids p (ht.pools ▸ hp)
  nodup c := ht.matchKeys c ▸ h.nodup c
  offers c o ho := by
    obtain ⟨how, hbd, hin, k, hk, hpl⟩ := h.offers c o (ht.offers c ▸ ho)
    refine ⟨how, hbd, ht.info c hin, k, hk, ?_⟩
    rwa [HasPool, ht.pools]

/-- Writing to connections keeps offers consistent as long as all owners of offers that stay are
open. -/
lemma Consistent.of_continues (h : Consistent bidder leaving s) (ht : Continues s t)
    (hop : ∀ k, ∀ o ∈ s.free k, t.isOpen o.owner ∨ o ∈ leaving') : Consistent bidder leaving' t where
  toFiled := h.toFiled.of_continues ht
  isOpen k o ho := hop k o (ht.free_eq k ▸ ho)
  awaited c hc j := by
    rw [ht.matchKeys, h.awaited c (ht.isOpen c hc)]
    simp only [ht.free_eq]

/-- Offers stay filed when some are taken out of a scheduler or change places in it. -/
lemma Filed.setPool (h : Filed bidder s) (hfr : pool.free.Subperm (s.pool key).free)
    (hbd : ∀ b ∈ pool.bids, bidder b.holder) : Filed bidder (s.setPool key pool) := by
  have hsub (k : String) : ((s.setPool key pool).free k).Subperm (s.free k) := by
    rw [free_setPool]
    split_ifs with hkey
    · rwa [free, ← hkey]
    · exact Subperm.refl _
  refine ⟨h.named.setPool fun hne => h.named.exists_str fun e => hne ?_, fun k o ho => h.key k o ((hsub k).subset ho),
    fun k => ?_, fun k o ho => h.apart k o ((hsub k).subset ho), fun p hp => ?_, fun c => ?_, fun c o ho => ?_⟩
  · rw [e] at hfr
    exact subperm_nil.1 hfr
  · obtain ⟨l, hpm, hl⟩ := hsub k
    exact (hpm.map _).nodup_iff.1 ((h.distinct k).sublist (hl.map _))
  · rcases mem_pools_setPool hp with ⟨hold, -⟩ | ⟨-, rfl⟩
    · exact h.bids p hold
    · exact hbd
  · rw [connection_setPool]
    exact h.nodup c
  · rw [connection_setPool] at ho ⊢
    obtain ⟨how, hbdr, hin, k, hk, hpl⟩ := h.offers c o ho
    exact ⟨how, hbdr, hin, k, hk, hpl.setPool key pool⟩

/-- The offers of a scheduler may change places, and connections that bid may come and go. -/
lemma Consistent.setPool (h : Consistent bidder leaving s) (hfr : pool.free.Perm (s.pool key).free)
    (hbd : ∀ b ∈ pool.bids, bidder b.holder) : Consistent bidder leaving (s.setPool key pool) := by
  have hmem (k : String) (o : Offer) : o ∈ (s.setPool key pool).free k ↔ o ∈ s.free k := by
    rw [free_setPool]
    split_ifs with hkey
    · rw [hfr.mem_iff, free, hkey]
    · rfl
  refine ⟨h.toFiled.setPool hfr.subperm hbd, fun k o ho => ?_, fun c hc j => ?_⟩
  · rw [isOpen_setPool]
    exact h.isOpen k o ((hmem k o).1 ho)
  · rw [connection_setPool, h.awaited c (by rwa [isOpen_setPool] at hc)]
    simp only [hmem]

lemma Filed.update (h : Filed bidder s) (hnd : (f (s.connection c)).matchKeys.Nodup)
    (hof : ∀ o ∈ (f (s.connection c)).offers, o.owner = c ∧ ¬ bidder c ∧
      (f (s.connection c)).info.contains "key" = true ∧ ∃ k, poolKey o.matchKey = .ok k ∧ s.HasPool k) :
    Filed bidder (s.update c f) where
  __ := h
  nodup c' := by
    rcases s.connection_update_or c f c' with e | ⟨rfl, e⟩
    · rw [e]
      exact h.nodup c'
    · rwa [e]
  offers c' := by
    rcases s.connection_update_or c f c' with e | ⟨rfl, e⟩
    · rw [e]
      exact h.offers c'
    · rw [e]
      exact hof

lemma Filed.eq_of_matchKey_eq (h : Filed bidder s) (ho : o ∈ s.free k) (ho' : o' ∈ s.free k')
    (heq : o.matchKey = o'.matchKey) : k = k' ∧ o = o' := by
  have hk := h.key k o ho
  rw [heq, h.key k' o' ho'] at hk
  obtain rfl : k' = k := Except.ok.inj hk
  exact ⟨rfl, inj_on_of_nodup_map (h.distinct k') ho ho' heq⟩

lemma Filed.bidder_of_mem (h : Filed bidder s) (hb : b ∈ (s.pool key).bids) : bidder b.holder := by
  rcases s.pool_mem_or key with ⟨p, hp, -, hpl⟩ | hno
  · exact h.bids p hp b (hpl ▸ hb)
  · rw [hno] at hb
    cases hb

lemma Consistent.mem_matchKeys (h : Consistent bidder [] s) (ho : o ∈ s.free k) :
    s.isOpen o.owner ∧ o.matchKey ∈ (s.connection o.owner).matchKeys := by
  have hop : s.isOpen o.owner := (h.isOpen k o ho).resolve_right not_mem_nil
  exact ⟨hop, (h.awaited o.owner hop _).2 ⟨k, o, ho, rfl, rfl⟩⟩

lemma lt_length_of_ne_default (h : s.connection c ≠ default) : c < s.connections.length := by
  by_contra hlen
  rw [Server.connection, getD_eq_getElem?_getD, getElem?_eq_none (not_lt.1 hlen)] at h
  exact h rfl

/-- What is free after an offer was taken out of its scheduler. -/
lemma Filed.mem_free_setPool (h : Filed bidder s) (ho : o ∈ s.free k)
    (hfr : ∀ o', o' ∈ pool.free ↔ o' ∈ s.free k ∧ o' ≠ o) :
    o' ∈ (s.setPool (.str k) pool).free k' ↔ o' ∈ s.free k' ∧ o' ≠ o := by
  rw [free_setPool]
  split_ifs with hk
  · rw [hfr, str.inj hk]
  · refine ⟨fun ho' => ⟨ho', ?_⟩, And.left⟩
    rintro rfl
    exact hk (congrArg str (h.eq_of_matchKey_eq ho ho' rfl).1)

/-- An offer that is accepted leaves its scheduler, and its match key is struck off. -/
lemma Consistent.deliver (h : Consistent bidder [] s) (htr : (s.pool (.str k)).turn = some (o, b, pool)) :
    Consistent bidder [] ((s.setPool (.str k) pool).update o.owner
      fun x => { x with matchKeys := x.matchKeys.erase o.matchKey }) := by
  obtain ⟨free, bids, hfr, hfst, hpl⟩ := Scheduler.turn_eq_some.1 htr
  have hk : s.free k = o :: pool.free := by rw [hpl]; exact hfr
  have ho : o ∈ s.free k := hk ▸ mem_cons_self
  have hmem {k' : String} {o' : Offer} : o' ∈ (s.setPool (.str k) pool).free k' ↔ o' ∈ s.free k' ∧ o' ≠ o := by
    have hnd := Nodup.of_map _ (h.distinct k)
    rw [hk, nodup_cons] at hnd
    refine h.toFiled.mem_free_setPool ho fun o' => ?_
    rw [hk, mem_cons]
    exact ⟨fun ho' => ⟨.inr ho', fun e => hnd.1 (e ▸ ho')⟩, fun ho' => ho'.1.resolve_left ho'.2⟩
  have hfl : Filed bidder (s.setPool (.str k) pool) := by
    refine h.toFiled.setPool ?_ fun b' hb' => ?_
    · change pool.free.Subperm (s.free k)
      rw [hk]
      exact (sublist_cons_self o _).subperm
    · rw [hpl] at hb'
      exact h.bidder_of_mem ((perm_of_takeFirst hfst).mem_iff.2 (mem_cons_of_mem b hb'))
  obtain ⟨hop, haw⟩ := h.mem_matchKeys ho
  obtain ⟨m, hm⟩ := exists_str_of_poolKey (h.key k o ho)
  have hks (c : Nat) (j : Json) : j ∈ (((s.setPool (.str k) pool).update o.owner
      fun x => { x with matchKeys := x.matchKeys.erase o.matchKey }).connection c).matchKeys ↔
        (o.owner = c → j ≠ o.matchKey) ∧ j ∈ (s.connection c).matchKeys := by
    by_cases hc : o.owner = c
    · subst hc
      have hlt := lt_length_of_ne_default fun e => by rw [e] at haw; cases haw
      rw [connection_update_self (by rwa [connections_setPool]), connection_setPool, hm,
        mem_erase_str (h.nodup o.owner)]
      simp
    · rw [connection_update_of_ne _ hc]
      simp [hc]
  refine ⟨hfl.update ?_ (hfl.offers o.owner), fun k' o' ho' => .inl ?_, fun c hc j => ?_⟩
  · rw [connection_setPool]
    exact (h.nodup o.owner).sublist erase_sublist
  · rw [isOpen_update (by intro; rfl), isOpen_setPool]
    exact (h.mem_matchKeys (hmem.1 ho').1).1
  · change _ ↔ ∃ k', ∃ o' ∈ (s.setPool (.str k) pool).free k', _
    rw [isOpen_update (by intro; rfl), isOpen_setPool] at hc
    rw [hks, h.awaited c hc]
    simp only [hmem]
    constructor
    · rintro ⟨hne, k', o', ho', how, hkey⟩
      exact ⟨k', o', ⟨ho', fun e => hne (e ▸ how) (e ▸ hkey.symm)⟩, how, hkey⟩
    · rintro ⟨k', o', ⟨ho', hne⟩, how, rfl⟩
      exact ⟨fun _ e => hne (h.eq_of_matchKey_eq ho' ho e).2, k', o', ho', how, rfl⟩

/-- The tracker with an offer more, whose match key its owner awaits. -/
def Server.offered (s : Server) (k : String) (o : Offer) : Server :=
  (s.update o.owner fun x => { x with matchKeys := x.matchKeys ++ [o.matchKey] }).setPool (.str k)
    ((s.pool (.str k)).put o)

lemma Server.mem_free_offered : o' ∈ (s.offered k o).free k' ↔ o' ∈ s.free k' ∨ k = k' ∧ o' = o := by
  rw [offered, free_setPool]
  split_ifs with hk
  · obtain rfl := str.inj hk
    change o' ∈ s.free k ++ [o] ↔ _
    simp
  · have hne : k ≠ k' := fun e => hk (congrArg str e)
    change o' ∈ s.free k' ↔ _
    simp [hne]

lemma Server.connection_offered_or (s : Server) (k : String) (o : Offer) (c : Nat) :
    (s.offered k o).connection c = s.connection c ∨ o.owner = c ∧ (s.offered k o).connection c =
      { s.connection c with matchKeys := (s.connection c).matchKeys ++ [o.matchKey] } := by
  rw [offered, connection_setPool]
  exact s.connection_update_or o.owner _ c

lemma Server.isOpen_offered (s : Server) (k : String) (o : Offer) (c : Nat) :
    (s.offered k o).isOpen c = s.isOpen c := by
  rw [offered, isOpen_setPool, isOpen_update (by intro; rfl)]

/-- An offer that an open connection makes under its key, with a match key that nobody awaits, is
free from then on. -/
lemma Consistent.offer (h : Consistent bidder [] s) (hlt : o.owner < s.connections.length)
    (hop : s.isOpen o.owner) (hbd : ¬ bidder o.owner) (hkey : poolKey o.matchKey = .ok k)
    (hfr : ∀ c, o.matchKey ∉ (s.connection c).matchKeys) : Consistent bidder [] (s.offered k o) := by
  have hfl : Filed bidder (s.update o.owner fun x => { x with matchKeys := x.matchKeys ++ [o.matchKey] }) := by
    exact h.toFiled.update (nodup_snoc (h.nodup _) (hfr _)) (h.offers o.owner)
  refine ⟨⟨hfl.named.setPool fun _ => ⟨k, rfl⟩, ?_, ?_, ?_, ?_, ?_, ?_⟩, ?_, ?_⟩
  · intro k' o' ho'
    rcases mem_free_offered.1 ho' with hold | ⟨rfl, rfl⟩
    · exact h.key k' o' hold
    · exact hkey
  · intro k'
    rw [offered, free_setPool]
    split
    · change ((s.free k ++ [o]).map Offer.matchKey).Nodup
      rw [map_append]
      refine nodup_snoc (h.distinct k) fun hj => ?_
      obtain ⟨o', ho', e⟩ := mem_map.1 hj
      exact hfr _ (e ▸ (h.mem_matchKeys ho').2)
    · exact h.distinct k'
  · intro k' o' ho'
    rcases mem_free_offered.1 ho' with hold | ⟨rfl, rfl⟩
    · exact h.apart k' o' hold
    · exact hbd
  · intro p hp
    rcases mem_pools_setPool hp with ⟨hold, -⟩ | ⟨-, hput⟩
    · exact h.bids p hold
    · rw [hput]
      exact fun b hb => h.bidder_of_mem hb
  · intro c
    rw [offered, connection_setPool]
    exact hfl.nodup c
  · intro c o' ho'
    rw [offered, connection_setPool] at ho' ⊢
    obtain ⟨how, hap, hin, k', hk', hpl⟩ := hfl.offers c o' ho'
    exact ⟨how, hap, hin, k', hk', hpl.setPool _ _⟩
  · intro k' o' ho'
    rw [isOpen_offered]
    rcases mem_free_offered.1 ho' with hold | ⟨-, rfl⟩
    · exact h.isOpen k' o' hold
    · exact .inl hop
  · intro c hc j
    rw [isOpen_offered] at hc
    simp only [mem_free_offered]
    by_cases hc' : o.owner = c
    · subst hc'
      rw [offered, connection_setPool, connection_update_self hlt, mem_append, mem_singleton, h.awaited _ hc]
      constructor
      · rintro (⟨k', o', ho', how⟩ | rfl)
        · exact ⟨k', o', .inl ho', how⟩
        · exact ⟨k, o, .inr ⟨rfl, rfl⟩, rfl, rfl⟩
      · rintro ⟨k', o', ho' | ⟨-, rfl⟩, how, hj⟩
        · exact .inl ⟨k', o', ho', how, hj⟩
        · exact .inr hj.symm
    · rw [(s.connection_offered_or k o c).resolve_right (hc' ·.1), h.awaited c hc]
      constructor
      · rintro ⟨k', o', ho', how⟩
        exact ⟨k', o', .inl ho', how⟩
      · rintro ⟨k', o', ho' | ⟨-, rfl⟩, how, hj⟩
        · exact ⟨k', o', ho', how, hj⟩
        · exact absurd how hc'

lemma Consistent.withdraw (h : Consistent bidder (o :: leaving) s) (ho : o ∈ s.free k)
    (hcl : s.isOpen o.owner = false) : Consistent bidder leaving (s.setPool (.str k) ((s.pool (.str k)).remove o)) := by
  have hmem {k' : String} {o' : Offer} :
      o' ∈ (s.setPool (.str k) ((s.pool (.str k)).remove o)).free k' ↔ o' ∈ s.free k' ∧ o' ≠ o := by
    refine h.toFiled.mem_free_setPool ho fun o' => ?_
    change o' ∈ (s.free k).erase o ↔ _
    rw [(Nodup.of_map _ (h.distinct k)).mem_erase_iff, and_comm]
  refine ⟨h.toFiled.setPool erase_sublist.subperm fun b hb => h.bidder_of_mem hb, fun k' o' ho' => ?_, fun c hc j => ?_⟩
  · rw [isOpen_setPool]
    obtain ⟨hold, hne⟩ := hmem.1 ho'
    exact (h.isOpen k' o' hold).imp_right fun hin => (mem_cons.1 hin).resolve_left hne
  · rw [isOpen_setPool] at hc
    rw [connection_setPool, h.awaited c hc]
    simp only [hmem]
    constructor
    · rintro ⟨k', o', ho', how, hj⟩
      refine ⟨k', o', ⟨ho', ?_⟩, how, hj⟩
      rintro rfl
      rw [how, hc] at hcl
      cases hcl
    · rintro ⟨k', o', ⟨ho', -⟩, how, hj⟩
      exact ⟨k', o', ho', how, hj⟩

lemma Consistent.of_notMem (h : Consistent bidder (o :: leaving) s) (hkey : poolKey o.matchKey = .ok k)
    (ho : o ∉ s.free k) : Consistent bidder leaving s where
  __ := h
  isOpen k' o' ho' := by
    refine (h.isOpen k' o' ho').imp_right fun hin => (mem_cons.1 hin).resolve_left ?_
    rintro rfl
    obtain rfl : k = k' := Except.ok.inj (hkey.symm.trans (h.key k' o' ho'))
    exact ho ho'

end Changes

end TensorToolchain.Tracker
