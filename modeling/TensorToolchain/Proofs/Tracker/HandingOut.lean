import TensorToolchain.Proofs.Tracker.Outbox
import TensorToolchain.Proofs.Tracker.StandingOffers

/-!
# Handing offers out

A round of handing out ends when no offer is free or no bid waits. Connections that bid may be
closed by the replies; they have no offers, so that nothing else happens then.
-/

namespace TensorToolchain.Tracker

open List Server

/-- How a tracker goes on in the course of events: no connection opens again, and offers are handed
out only for connections that are open. -/
structure Later (s t : Server) : Prop where
  isOpen : ∀ c, t.isOpen c = true → s.isOpen c = true
  calls : ∃ calls, t.calls = s.calls ++ calls ∧ ∀ call ∈ calls, s.isOpen call.value.owner = true

/-- How a tracker goes on at a step: no connection comes, what is known of connections is not
forgotten, and connections await no match keys but those that were `gained`. -/
structure Advances (gained : List (Nat × Json)) (s t : Server) : Prop extends Later s t where
  length : t.connections.length = s.connections.length
  info : ∀ c, (s.connection c).info.contains "key" = true → (t.connection c).info.contains "key" = true
  matchKeys : ∀ c, ∀ j ∈ (t.connection c).matchKeys, j ∈ (s.connection c).matchKeys ∨ (c, j) ∈ gained

variable {s t u : Server} {f : Connection → Connection}

lemma Later.of_calls_eq (hop : ∀ c, t.isOpen c → s.isOpen c) (hcl : t.calls = s.calls) : Later s t :=
  ⟨hop, [], by rw [hcl, append_nil], by simp⟩

lemma Later.refl (s : Server) : Later s s := .of_calls_eq (fun _ => id) rfl

lemma Later.trans (h : Later s t) (h' : Later t u) : Later s u where
  isOpen c := h.isOpen c ∘ h'.isOpen c
  calls := by
    obtain ⟨calls, heq, hcls⟩ := h.calls
    obtain ⟨calls', heq', hcl'⟩ := h'.calls
    refine ⟨calls ++ calls', by rw [heq', heq, append_assoc], fun call hcl => ?_⟩
    rcases mem_append.1 hcl with hcl | hcl
    · exact hcls call hcl
    · exact h.isOpen _ (hcl' call hcl)

namespace Advances

variable {gained gained' : List (Nat × Json)}

lemma refl (s : Server) : Advances [] s s := ⟨.refl s, rfl, fun _ => id, fun _ _ => .inl⟩

lemma trans (h : Advances gained s t) (h' : Advances gained' t u) : Advances (gained ++ gained') s u where
  toLater := h.toLater.trans h'.toLater
  length := h'.length.trans h.length
  info c := h'.info c ∘ h.info c
  matchKeys c j hj := by
    rw [mem_append]
    rcases h'.matchKeys c j hj with hj | hj
    · exact (h.matchKeys c j hj).imp_right .inl
    · exact .inr (.inr hj)

lemma of_continues (h : Continues s t) (hlen : t.connections.length = s.connections.length)
    (hcl : t.calls = s.calls) : Advances [] s t where
  toLater := .of_calls_eq h.isOpen hcl
  length := hlen
  info := h.info
  matchKeys c _ hj := .inl (h.matchKeys c ▸ hj)

lemma update (s : Server) (c : Nat) (hot : ∀ x, (f x).outbox = x.outbox)
    (hin : ∀ x, (f x).info = x.info)
    (hks : ∀ j ∈ (f (s.connection c)).matchKeys, j ∈ (s.connection c).matchKeys ∨ (c, j) ∈ gained) :
    Advances gained s (s.update c f) := by
  refine ⟨.of_calls_eq (fun c' h => ?_) rfl, s.length_update c f, fun c' h => ?_, fun c' j hj => ?_⟩
  · rwa [isOpen_update hot] at h
  · rwa [field_update _ hin]
  · rcases s.connection_update_or c f c' with e | ⟨rfl, e⟩
    · exact .inl (e ▸ hj)
    · exact hks j (e ▸ hj)

lemma of_connections_eq (h : t.connections = s.connections) (hcl : t.calls = s.calls) : Advances [] s t := by
  have hsm (c : Nat) : t.connection c = s.connection c := by rw [Server.connection, h, Server.connection]
  refine ⟨.of_calls_eq (fun c hc => ?_) hcl, congrArg List.length h, fun c hc => ?_, fun c j hj => .inl ?_⟩
  · rwa [isOpen, hsm] at hc
  · rwa [hsm]
  · rwa [hsm] at hj

end Advances

/-! ### Replies to a connection without offers -/

/-- What writing to a connection without offers does: it may close that connection. -/
structure Writes (c : Nat) (s t : Server) : Prop extends Continues s t where
  length : t.connections.length = s.connections.length
  calls : t.calls = s.calls
  others : ∀ c', c' ≠ c → s.isOpen c' = true → t.isOpen c' = true

namespace Writes

variable {c : Nat}

lemma refl (c : Nat) (s : Server) : Writes c s s := ⟨.refl s, rfl, rfl, fun _ _ => id⟩

lemma trans (h : Writes c s t) (h' : Writes c t u) : Writes c s u where
  toContinues := h.toContinues.trans h'.toContinues
  length := h'.length.trans h.length
  calls := h'.calls.trans h.calls
  others c' hc := h'.others c' hc ∘ h.others c' hc

lemma update (s : Server) (hop : (f (s.connection c)).outbox.isOpen → s.isOpen c)
    (hks : ∀ x, (f x).matchKeys = x.matchKeys := by intro; rfl) (hof : ∀ x, (f x).offers = x.offers := by intro; rfl)
    (hin : ∀ x, (f x).info = x.info := by intro; rfl) : Writes c s (s.update c f) where
  toContinues := .update s c hks hof (by rw [hin]; exact id) hop
  length := s.length_update c f
  calls := rfl
  others c' hc h := by rwa [isOpen, connection_update_of_ne s (.symm hc)]

end Writes

section Replies

variable (settle : Json → Tracking Unit) {c : Nat}

/-- A step that leaves off as after writes to a connection, and is refused by the system alone. -/
def WritesTo (c : Nat) (x : Tracking Unit) (s : Server) : Prop :=
  ∃ r t, x.run.run s = (r, t) ∧ Writes c s t ∧ ∀ e, r = .error e → e.kind = .system

section

variable (hnone : (s.connection c).offers = [])
include hnone

lemma writesTo_release : WritesTo c (release settle c) s := by
  refine ⟨.ok (), s.update c fun x => { x with registered := false }, ?_,
    .update s id, by simp⟩
  rw [release, run_connection_bind, hnone]
  split <;> rfl

lemma writesTo_write (bytes : List UInt8) : WritesTo c (write settle c bytes) s := by
  rw [WritesTo, write, run_connection_bind, Outbox.write_eq]
  split
  · rename_i hop
    generalize Outbox.flush _ = outbox
    have hwr : Writes c s (s.update c fun x => { x with outbox }) :=
      .update s fun _ => hop
    change ∃ r t, (setOutbox settle c outbox).run.run s = (r, t) ∧ _
    rw [setOutbox]
    split
    · obtain ⟨r, t, hrun, hrl, hr⟩ := writesTo_release settle ((hwr.offers c).trans hnone)
      exact ⟨r, t, hrun, hwr.trans hrl, hr⟩
    · exact ⟨.ok (), _, rfl, hwr, by simp⟩
  · exact ⟨_, s, rfl, .refl c s, fun e he => by cases he; rfl⟩

lemma writesTo_reply (value : Json) : WritesTo c (reply settle c value) s := by
  obtain ⟨r, t, hrun, hwr, hr⟩ := writesTo_write settle hnone (frameParts value).1
  rw [WritesTo, reply, step_bind_run, hrun]
  cases r with
  | ok _ =>
    obtain ⟨r', u, hrn', hwr', hr'⟩ := writesTo_write settle ((hwr.offers c).trans hnone) (frameParts value).2
    exact ⟨r', u, hrn', hwr.trans hwr', hr'⟩
  | error e => exact ⟨.error e, t, rfl, hwr, hr⟩

lemma exists_handOver (offer : Offer) :
    ∃ accepted t, (handOver settle offer c).run.run s = (.ok accepted, t) ∧ Writes c s t := by
  rw [handOver, run_connection_bind]
  split
  · exact ⟨false, s, rfl, .refl c s⟩
  · obtain ⟨r, t, hrun, hwr, hr⟩ := writesTo_reply settle hnone offer.message
    rw [orElse, step_tryCatch_run, step_bind_run, hrun]
    cases r with
    | ok _ => exact ⟨true, t, rfl, hwr⟩
    | error e =>
      refine ⟨false, t, ?_, hwr⟩
      dsimp only
      rw [if_pos (hr e rfl)]
      rfl

end

end Replies

/-! ### A round -/

/-- What a round of handing out the offers of a key leaves alone. -/
structure Handed (k : String) (s t : Server) : Prop extends Advances [] s t where
  offers : ∀ c, (t.connection c).offers = (s.connection c).offers
  free : ∀ o ∈ t.free k, o ∈ s.free k
  others : ∀ k', k' ≠ k → t.pool (.str k') = s.pool (.str k')
  hasPool : ∀ k', s.HasPool k' → t.HasPool k'

namespace Handed

variable {k : String}

lemma refl (k : String) (s : Server) : Handed k s s := ⟨.refl s, fun _ => rfl, fun _ => id, fun _ _ => rfl, fun _ => id⟩

lemma trans (h : Handed k s t) (h' : Handed k t u) : Handed k s u where
  toAdvances := h.toAdvances.trans h'.toAdvances
  offers c := (h'.offers c).trans (h.offers c)
  free o := h.free o ∘ h'.free o
  others k' hk := (h'.others k' hk).trans (h.others k' hk)
  hasPool k' := h'.hasPool k' ∘ h.hasPool k'

lemma setPool (s : Server) {pool : Pool} (hfr : ∀ o ∈ pool.free, o ∈ s.free k) :
    Handed k s (s.setPool (.str k) pool) where
  toAdvances := .of_connections_eq (s.connections_setPool _ _) (s.calls_setPool _ _)
  offers c := by rw [connection_setPool]
  free o ho := by
    rw [free_setPool, if_pos rfl] at ho
    exact hfr o ho
  others k' hk := by rw [pool_setPool, if_neg fun e => hk (Json.str.inj e).symm]
  hasPool k' hk := hk.setPool _ _

lemma update (k : String) (s : Server) (c : Nat)
    (hks : ∀ x, (f x).matchKeys ⊆ x.matchKeys) (hof : ∀ x, (f x).offers = x.offers)
    (hin : ∀ x, (f x).info = x.info) (hot : ∀ x, (f x).outbox = x.outbox) : Handed k s (s.update c f) := by
  exact ⟨.update s c hot hin fun j hj => .inl (hks _ hj), field_update _ hof s c, fun _ => id,
    fun _ _ => rfl, fun _ => id⟩

lemma of_writes {c : Nat} (h : Writes c s t) {call : Call Number.Scalar Offer Nat}
    (hop : s.isOpen call.value.owner) : Handed k s { t with calls := t.calls ++ [call] } where
  __ := h
  matchKeys c j hj := Or.inl (h.matchKeys c ▸ hj)
  calls := ⟨[call], by rw [← h.calls], by simpa using hop⟩
  free o ho := h.free_eq k ▸ ho
  others k' _ := h.pool_eq _
  hasPool k' hk := by
    rw [HasPool, ← h.pools] at hk
    exact hk

end Handed

section Round

variable {bidder : Nat → Prop} {k : String} {o : Offer} {b : Bid Number.Scalar Nat} {pool : Pool}

lemma length_of_turn (htr : (s.pool (.str k)).turn = some (o, b, pool)) :
    (s.pool (.str k)).bids.length = pool.bids.length + 1 := by
  obtain ⟨free, bids, -, hfst, rfl⟩ := Scheduler.turn_eq_some.1 htr
  rw [(perm_of_takeFirst hfst).length_eq, length_cons]

lemma run_strike {m : String} (hm : o.matchKey = .str m) (hmem : o.matchKey ∈ (s.connection o.owner).matchKeys) :
    (strike o).run.run s =
      (.ok (), s.update o.owner fun x => { x with matchKeys := x.matchKeys.erase o.matchKey }) := by
  have hcn : (s.connection o.owner).matchKeys.contains o.matchKey := by
    rw [hm] at hmem ⊢
    exact contains_str.2 hmem
  rw [strike, run_connection_bind, if_neg (by simp [hcn])]
  rfl

lemma length_bids_le (s : Server) (key : Json) : (s.pool key).bids.length ≤ s.bidCount := by
  rcases s.pool_mem_or key with ⟨p, hp, -, hpl⟩ | hnone
  · rw [hpl, bidCount]
    have hmem : p.2.bids ∈ s.pools.map fun p => p.2.bids := mem_map.2 ⟨p, hp, rfl⟩
    exact (sublist_flatten_of_mem hmem).length_le
  · rw [hnone]
    exact Nat.zero_le _

lemma run_settle_of_turn {key : Json} (htr : (s.pool key).turn = none) : (settle key).run.run s = (.ok (), s) := by
  rw [settle, step_get_bind_run]
  cases s.bidCount with
  | zero => rfl
  | succ n =>
    rw [settleFor, step_get_bind_run, htr]
    rfl

variable (h : Consistent bidder [] s)
include h

/-- A connection that bids gets an offer: apart from what was taken out of the scheduler, it is as
though the connection had only been written to. -/
lemma exists_handOver_bidder (settle : Json → Tracking Unit) (htr : (s.pool (.str k)).turn = some (o, b, pool)) :
    ∃ accepted t, (handOver settle o b.holder).run.run (s.setPool (.str k) pool) =
      (.ok accepted, t.setPool (.str k) pool) ∧ Writes b.holder s t ∧ Consistent bidder [] t := by
  obtain ⟨free, bids, -, hfst, -⟩ := Scheduler.turn_eq_some.1 htr
  have hbd : bidder b.holder := h.bidder_of_mem ((perm_of_takeFirst hfst).mem_iff.2 mem_cons_self)
  have hnone : (s.connection b.holder).offers = [] :=
    eq_nil_iff_forall_not_mem.2 fun o ho => (h.offers b.holder o ho).2.1 hbd
  have hno' : ((s.setPool (.str k) pool).connection b.holder).offers = [] := by rwa [connection_setPool]
  obtain ⟨accepted, t, hrun, hwr⟩ := exists_handOver settle hno' o
  have hwr' : Writes b.holder s { t with pools := s.pools } :=
    { pools := rfl
      matchKeys := fun c => (hwr.matchKeys c).trans (by rw [connection_setPool])
      offers := fun c => (hwr.offers c).trans (by rw [connection_setPool])
      info := fun c hc => hwr.info c (by rwa [connection_setPool])
      isOpen := fun c hc => by simpa using hwr.isOpen c hc
      length := hwr.length.trans (by rw [connections_setPool])
      calls := hwr.calls.trans (by rw [calls_setPool])
      others := fun c hc hop => hwr.others c hc (by rwa [isOpen_setPool]) }
  refine ⟨accepted, { t with pools := s.pools }, ?_, hwr', ?_⟩
  · have hpl : ({ t with pools := s.pools } : Server).pools = s.pools := rfl
    rw [hrun, setPool_of_pools_eq hpl, ← hwr.pools]
  · refine h.of_continues hwr'.toContinues fun k o ho => (h.isOpen k o ho).imp_left ?_
    exact hwr'.others o.owner fun e => h.apart k o ho (e ▸ hbd)

/-- What was said of a call does not matter to the offers. -/
lemma Consistent.log (calls : List (Call Number.Scalar Offer Nat)) : Consistent bidder [] { s with calls } :=
  h.of_continues ⟨rfl, fun _ => rfl, fun _ => rfl, fun _ => id, fun _ => id⟩ h.isOpen

/-- One offer goes to one bid: the tracker goes on from a state where either the offer was accepted
and its match key struck off, or the offer is free again. -/
lemma exists_turn (htr : (s.pool (.str k)).turn = some (o, b, pool)) (fuel : Nat) :
    ∃ t, (settleFor (fuel + 1) (.str k)).run.run s = (settleFor fuel (.str k)).run.run t ∧
      Consistent bidder [] t ∧ Handed k s t ∧ (t.pool (.str k)).bids = pool.bids := by
  obtain ⟨accepted, t, hrun, hwr, ht⟩ := exists_handOver_bidder h _ htr
  let u : Server := { t with calls := t.calls ++ [⟨o, b, accepted⟩] }
  have hu : Consistent bidder [] u := ht.log _
  have htr' : (u.pool (.str k)).turn = some (o, b, pool) := by
    change (t.pool (.str k)).turn = _
    rw [hwr.pool_eq, htr]
  obtain ⟨free, bids, hfr, -, hpl⟩ := Scheduler.turn_eq_some.1 htr'
  have hk : u.free k = o :: pool.free := by rw [hpl]; exact hfr
  have ho : o ∈ u.free k := hk ▸ mem_cons_self
  obtain ⟨hop, haw⟩ := hu.mem_matchKeys ho
  have hhn : Handed k s u := .of_writes hwr (hwr.isOpen _ hop)
  have hlg : (settleFor (fuel + 1) (.str k)).run.run s =
      ((if accepted = true then strike o >>= fun _ => settleFor fuel (.str k)
        else updatePool (.str k) (·.put o) >>= fun _ => settleFor fuel (.str k) :
          Tracking Unit)).run.run (u.setPool (.str k) pool) := by
    have hpls : u.pools = t.pools := rfl
    rw [settleFor, step_get_bind_run, htr]
    rw [run_updatePool_bind, step_bind_run, hrun, setPool_of_pools_eq hpls, setPool_of_pools_eq rfl]
    rfl
  cases accepted with
  | true =>
    obtain ⟨m, hm⟩ := exists_str_of_poolKey (hu.key k o ho)
    refine ⟨_, ?_, hu.deliver htr', hhn.trans ((Handed.setPool u ?_).trans (.update k _ _ ?_ ?_ ?_ ?_)), ?_⟩
    · rw [hlg, if_pos rfl, step_bind_run, run_strike hm (by rwa [connection_setPool])]
    · exact fun o' ho' => hk ▸ mem_cons_of_mem o ho'
    · exact fun x => erase_sublist.subset
    · exact fun x => rfl
    · exact fun x => rfl
    · exact fun x => rfl
    · change ((u.setPool (.str k) pool).pool (.str k)).bids = _
      rw [pool_setPool, if_pos rfl]
  | false =>
    have hpm : (pool.put o).free.Perm (u.pool (.str k)).free := by
      change (pool.free ++ [o]).Perm (u.free k)
      rw [hk]
      exact perm_append_singleton o _
    refine ⟨u.setPool (.str k) _, ?_, hu.setPool hpm ?_, hhn.trans (.setPool u ?_), ?_⟩
    · rw [hlg, if_neg (by simp), run_updatePool_bind, setPool_setPool, pool_setPool, if_pos rfl]
    · intro b' hb'
      have hmem : b' ∈ (u.pool (.str k)).bids := by
        obtain ⟨_, bids, -, hfst, rfl⟩ := Scheduler.turn_eq_some.1 htr'
        exact (perm_of_takeFirst hfst).mem_iff.2 (mem_cons_of_mem b hb')
      exact hu.bidder_of_mem hmem
    · exact fun o' ho' => hpm.mem_iff.1 ho'
    · rw [pool_setPool, if_pos rfl]
      rfl

lemma exists_settleFor {fuel : Nat} (hfl : (s.pool (.str k)).bids.length ≤ fuel) :
    ∃ t, (settleFor fuel (.str k)).run.run s = (.ok (), t) ∧ Consistent bidder [] t ∧ Handed k s t ∧
      (t.pool (.str k)).turn = none := by
  induction fuel generalizing s with
  | zero =>
    refine ⟨s, rfl, h, .refl k s, ?_⟩
    exact Scheduler.turn_eq_none.2 (.inr (length_eq_zero_iff.1 (Nat.le_zero.1 hfl)))
  | succ fuel ih =>
    cases htr : (s.pool (.str k)).turn with
    | none =>
      refine ⟨s, ?_, h, .refl k s, htr⟩
      rw [settleFor, step_get_bind_run, htr]
      rfl
    | some next =>
      obtain ⟨t, hrun, ht, hhn, hbd⟩ := exists_turn h htr fuel
      have hlen := length_of_turn htr
      obtain ⟨u, hrn', hu, hhn', hdn⟩ := ih ht (by rw [hbd]; omega)
      exact ⟨u, hrun.trans hrn', hu, hhn.trans hhn', hdn⟩

lemma exists_settle (k : String) :
    ∃ t, (settle (.str k)).run.run s = (.ok (), t) ∧ Consistent bidder [] t ∧ Handed k s t ∧
      (t.pool (.str k)).turn = none := by
  exact exists_settleFor h (length_bids_le s _)

end Round

end TensorToolchain.Tracker
