import TensorToolchain.Proofs.Keyed
import TensorToolchain.Proofs.Tracker.HandingOut

/-!
# Upkeep of offers

Between two messages offers are steady: they are consistent, the free ones are listed by their
owners, and nothing can be handed out. Every way in which a connection is closed keeps offers
steady, and so does the answer to a message.
-/

namespace TensorToolchain.Tracker

open List Server Advances

variable {k m : String}

/-- Offers are consistent, their owners list those that are free, and nothing can be handed out. -/
structure Steady (bidder : Nat → Prop) (leaving : List Offer) (s : Server) : Prop
    extends Consistent bidder leaving s where
  listed : ∀ k, ∀ o ∈ s.free k, o ∈ (s.connection o.owner).offers
  drained : ∀ k, (s.pool (.str k)).turn = none

variable {bidder : Nat → Prop}

section Closing

variable {leaving leaving' : List Offer} {s t : Server} {c : Nat} {o : Offer}

lemma Steady.of_continues (h : Steady bidder leaving s) (ht : Continues s t)
    (hop : ∀ k, ∀ o ∈ s.free k, t.isOpen o.owner ∨ o ∈ leaving') : Steady bidder leaving' t where
  toConsistent := h.toConsistent.of_continues ht hop
  listed k o ho := by
    rw [ht.offers]
    exact h.listed k o (ht.free_eq k ▸ ho)
  drained k := by
    rw [ht.pool_eq]
    exact h.drained k

lemma Steady.of_stays (h : Steady bidder leaving s) (ht : Continues s t)
    (hst : ∀ c, s.isOpen c → t.isOpen c) : Steady bidder leaving t :=
  h.of_continues ht fun k o ho => (h.isOpen k o ho).imp_left (hst o.owner)

/-- The offers of a connection that is closed are those about to be withdrawn. -/
lemma Steady.shut (h : Steady bidder [] s) (ht : Continues s t)
    (hot : ∀ c', c' ≠ c → s.isOpen c' → t.isOpen c') : Steady bidder (t.connection c).offers t := by
  refine h.of_continues ht fun k o ho => ?_
  by_cases hc : o.owner = c
  · refine .inr ?_
    rw [ht.offers, ← hc]
    exact h.listed k o ho
  · exact .inl (hot _ hc (h.mem_matchKeys ho).1)

lemma turn_remove {pool : Pool} (h : pool.turn = none) (o : Offer) : (pool.remove o).turn = none := by
  refine Scheduler.turn_eq_none.2 ((Scheduler.turn_eq_none.1 h).imp_left fun hfr => ?_)
  change pool.free.erase o = []
  rw [hfr, erase_nil]

/-- An offer that is withdrawn leaves its scheduler, and no other offer is handed out by that. -/
lemma exists_withdraw (h : Steady bidder (o :: leaving) s) (ho : o ∈ (s.connection c).offers)
    (hcl : s.isOpen c = false) : ∃ t, (withdraw settle o).run.run s = (.ok (), t) ∧ Steady bidder leaving t ∧
      t.connections = s.connections ∧ t.calls = s.calls := by
  obtain ⟨how, -, -, k, hk, p, hp, hpk⟩ := h.offers c o ho
  have hany : (s.pools.any (·.1 == .str k)) = true := any_eq_true.2 ⟨p, hp, beq_str.2 hpk⟩
  rw [withdraw, run_orStop_bind hk, step_get_bind_run, if_neg (by simp [hany])]
  split_ifs with hcn
  · have hfr : o ∈ s.free k := contains_iff_mem.1 hcn
    have hpl : (s.setPool (.str k) ((s.pool (.str k)).remove o)).pool (.str k) = (s.pool (.str k)).remove o := by
      rw [pool_setPool, if_pos rfl]
    have htr := turn_remove (h.drained k) o
    refine ⟨s.setPool (.str k) _, ?_, ⟨h.withdraw hfr (how ▸ hcl), ?_, ?_⟩,
      s.connections_setPool _ _, s.calls_setPool _ _⟩
    · exact run_settle_of_turn (by rwa [hpl])
    · intro k' o' ho'
      rw [connection_setPool]
      refine h.listed k' o' ?_
      rw [free_setPool] at ho'
      split_ifs at ho' with hk'
      · rw [← Json.str.inj hk']
        exact erase_sublist.subset ho'
      · exact ho'
    · intro k'
      rw [pool_setPool]
      split
      · exact htr
      · exact h.drained k'
  · have hfr : o ∉ s.free k := fun hmem => hcn (contains_iff_mem.2 hmem)
    exact ⟨s, rfl, ⟨h.of_notMem hk hfr, h.listed, h.drained⟩, rfl, rfl⟩

lemma exists_withdraw_all (h : Steady bidder leaving s) (hof : leaving ⊆ (s.connection c).offers)
    (hcl : s.isOpen c = false) : ∃ t, (leaving.forM (withdraw settle)).run.run s = (.ok (), t) ∧ Steady bidder [] t ∧
      t.connections = s.connections ∧ t.calls = s.calls := by
  induction leaving generalizing s with
  | nil => exact ⟨s, rfl, h, rfl, rfl⟩
  | cons o leaving ih =>
    rw [cons_subset] at hof
    obtain ⟨t, hrun, ht, hcn, hcls⟩ := exists_withdraw h hof.1 hcl
    have hsm : t.connection c = s.connection c := by rw [Server.connection, hcn, Server.connection]
    obtain ⟨u, hrn', hu, hcn', hcl'⟩ := ih ht (by rw [hsm]; exact hof.2) (by rwa [isOpen, hsm])
    refine ⟨u, ?_, hu, hcn'.trans hcn, hcl'.trans hcls⟩
    have hcns : (o :: leaving).forM (withdraw settle) = withdraw settle o >>= fun _ => leaving.forM _ := rfl
    rw [hcns, step_bind_run, hrun]
    exact hrn'

/-- A connection that has just been closed is released: all its offers are withdrawn. -/
lemma exists_release (h : Steady bidder (s.connection c).offers s)
    (hcl : (s.connection c).offers ≠ [] → s.isOpen c = false) :
    ∃ t, (release settle c).run.run s = (.ok (), t) ∧ Steady bidder [] t ∧ Advances [] s t := by
  have hwr : Writes c s (s.update c fun x => { x with registered := false }) :=
    .update s id
  have his (c' : Nat) : (s.update c fun x => { x with registered := false }).isOpen c' = s.isOpen c' :=
    isOpen_update (by intro; rfl) s c c'
  have hst := h.of_stays hwr.toContinues fun c' hc => (his c').trans hc
  have had := of_continues hwr.toContinues hwr.length hwr.calls
  rw [release, run_connection_bind]
  by_cases hno : (s.connection c).offers = []
  · rw [hno] at hst ⊢
    refine ⟨_, ?_, hst, had⟩
    split <;> rfl
  · obtain ⟨o, ho⟩ := exists_mem_of_ne_nil _ hno
    rw [if_pos (h.offers c o ho).2.2.1]
    obtain ⟨t, hrun, ht, hcn, hcls⟩ := exists_withdraw_all hst
      (by rw [hwr.offers]; exact Subset.refl _) ((his c).trans (hcl hno))
    exact ⟨t, hrun, ht, had.trans (of_connections_eq hcn hcls)⟩

end Closing

/-! ### Steps that keep offers steady -/

/-- Where a step starts, offers are steady; it leaves them so, and no match keys are gained. -/
def Keeps {α : Type} (bidder : Nat → Prop) (x : Tracking α) : Prop :=
  ∀ s, Steady bidder [] s → Steady bidder [] (x.run.run s).2 ∧ Advances [] s (x.run.run s).2

namespace Keeps

variable {α β : Type}

lemma ret (a : α) : Keeps bidder (pure a : Tracking α) := fun s h => ⟨h, refl s⟩

lemma refuse (e : Fault) : Keeps bidder (throw e : Tracking α) := fun s h => ⟨h, refl s⟩

lemma orStop (r : Except Fault α) : Keeps bidder (Tracker.orStop r) := fun s h => ⟨h, refl s⟩

lemma bind {x : Tracking α} {f : α → Tracking β} (hx : Keeps bidder x) (hf : ∀ a, Keeps bidder (f a)) :
    Keeps bidder (x >>= f) := by
  intro s h
  obtain ⟨hst, had⟩ := hx s h
  rw [step_bind_run]
  rcases hrun : x.run.run s with ⟨r, t⟩
  rw [hrun] at hst had
  cases r with
  | ok a =>
    obtain ⟨hst', had'⟩ := hf a t hst
    exact ⟨hst', had.trans had'⟩
  | error e => exact ⟨hst, had⟩

lemma read {f : Server → Tracking α} (hf : ∀ s, Keeps bidder (f s)) : Keeps bidder (get >>= f) := fun s h => hf s s h

lemma forM {f : β → Tracking PUnit} (hf : ∀ b, Keeps bidder (f b)) (bs : List β) : Keeps bidder (bs.forM f) := by
  induction bs with
  | nil => exact ret _
  | cons b bs ih => exact (hf b).bind fun _ => ih

end Keeps

/-! ### Writing and closing -/

section Writing

variable {s : Server} {c : Nat}

/-- The writing side of an open connection is replaced; if it broke, the connection is released. -/
lemma steady_setOutbox (h : Steady bidder [] s) (hop : s.isOpen c) (outbox : Outbox) :
    Steady bidder [] ((setOutbox settle c outbox).run.run s).2 ∧
      Advances [] s ((setOutbox settle c outbox).run.run s).2 := by
  have hwr : Writes c s (s.update c fun x => { x with outbox }) :=
    .update s fun _ => hop
  have had := of_continues hwr.toContinues hwr.length hwr.calls
  rw [setOutbox, run_update_bind]
  split
  · rename_i hbr
    have hcl (hof : ((s.update c fun x => { x with outbox }).connection c).offers ≠ []) :
        (s.update c fun x => { x with outbox }).isOpen c = false := by
      rw [isOpen, connection_update_self (hwr.length ▸ lt_length_of_ne_default fun e => hof (by rw [e]; rfl))]
      simpa using hbr
    obtain ⟨t, hrun, ht, hrl⟩ := exists_release (h.shut hwr.toContinues hwr.others) hcl
    rw [hrun]
    exact ⟨ht, had.trans hrl⟩
  · rename_i hst
    have hsty (c' : Nat) (hc : s.isOpen c' = true) : (s.update c fun x => { x with outbox }).isOpen c' = true := by
      rcases s.connection_update_or c (fun x => { x with outbox }) c' with e | ⟨-, e⟩
      · rwa [isOpen, e]
      · rw [isOpen, e]
        simpa using hst
    exact ⟨h.of_stays hwr.toContinues hsty, had⟩

lemma keeps_write (c : Nat) (bytes : List UInt8) : Keeps bidder (write settle c bytes) := by
  intro s h
  rw [write, run_connection_bind, Outbox.write_eq]
  split_ifs with hop
  · exact steady_setOutbox h hop _
  · exact ⟨h, refl s⟩

lemma keeps_reply (c : Nat) (value : Json) : Keeps bidder (reply settle c value) :=
  (keeps_write c _).bind fun _ => keeps_write c _

lemma keeps_close (c : Nat) : Keeps bidder (close settle c) := by
  intro s h
  rw [close, run_connection_bind]
  split_ifs with hop
  · have hsm : s.update c (fun x => { x with outbox := { x.outbox with isOpen := false } }) =
        s.update c fun x => { x with outbox := { (s.connection c).outbox with isOpen := false } } :=
      update_congr rfl
    rw [run_update_bind, hsm]
    exact steady_setOutbox h hop { (s.connection c).outbox with isOpen := false }
  · exact ⟨h, refl s⟩

lemma keeps_stopServer : Keeps bidder stopServer := .read fun _ => .forM keeps_close _

end Writing

/-! ### Messages -/

section Messages

/-- After a round nothing can be handed out under any key, if this was so of the other keys
before. -/
lemma exists_settle_drained {key : Json} (h : Consistent bidder [] s)
    (hdr : ∀ k, key ≠ .str k → (s.pool (.str k)).turn = none) :
    ∃ t, (settle key).run.run s = (.ok (), t) ∧ Consistent bidder [] t ∧ Advances [] s t ∧
      (∀ c, (t.connection c).offers = (s.connection c).offers) ∧ (∀ k, ∀ o ∈ t.free k, o ∈ s.free k) ∧
      (∀ k, s.HasPool k → t.HasPool k) ∧ ∀ k, (t.pool (.str k)).turn = none := by
  by_cases hkey : ∃ k, key = .str k
  · obtain ⟨k, rfl⟩ := hkey
    obtain ⟨t, hrun, ht, hhn, htr⟩ := exists_settle h k
    refine ⟨t, hrun, ht, hhn.toAdvances, hhn.offers, fun k' o ho => ?_, hhn.hasPool, fun k' => ?_⟩
    · by_cases hk : k' = k
      · subst hk
        exact hhn.free o ho
      · rwa [free, hhn.others k' hk] at ho
    · by_cases hk : k' = k
      · rwa [hk]
      · rw [hhn.others k' hk]
        exact hdr k' fun e => hk (Json.str.inj e).symm
  · have hfr : (s.pool key).free = [] := by
      by_contra hne
      exact hkey (h.named.exists_str hne)
    refine ⟨s, run_settle_of_turn (Scheduler.turn_eq_none.2 (.inl hfr)), h, refl s, fun _ => rfl,
      fun _ _ => id, fun _ => id, fun k => hdr k fun e => hkey ⟨k, e⟩⟩

lemma keeps_handleRequest (hc : bidder c) (key priority : Json) : Keeps bidder (handleRequest c key priority) := by
  intro s h
  -- a scheduler whose offers stay as they are
  have hkp (pool : Pool) (hfr : pool.free = (s.pool key).free) (hbd : ∀ b ∈ pool.bids, bidder b.holder) :
      Consistent bidder [] (s.setPool key pool) ∧ Advances [] s (s.setPool key pool) ∧
        ∀ k, (s.setPool key pool).free k = s.free k := by
    refine ⟨h.setPool (by rw [hfr]) hbd, of_connections_eq (s.connections_setPool _ _)
      (s.calls_setPool _ _), fun k => ?_⟩
    rw [free_setPool]
    split_ifs with hk
    · rw [hfr, hk, free]
    · rfl
  have hls {t : Server} (hof : ∀ c, (t.connection c).offers = (s.connection c).offers)
      (hfr : ∀ k, ∀ o ∈ t.free k, o ∈ s.free k) (k : String) (o : Offer) (ho : o ∈ t.free k) :
      o ∈ (t.connection o.owner).offers := by
    rw [hof]
    exact h.listed k o (hfr k o ho)
  unfold handleRequest
  extract_lets bidding
  have hbdn (u : Unit) : Steady bidder [] ((bidding u).run.run s).2 ∧ Advances [] s ((bidding u).run.run s).2 := by
    dsimp only [bidding]
    split
    · obtain ⟨hcn, had, hsm⟩ := hkp _ rfl fun b hb => h.bidder_of_mem hb
      refine ⟨⟨hcn, hls (fun c => ?_) fun k o ho => hsm k ▸ ho, fun k => ?_⟩, had⟩
      · exact congrArg Connection.offers (s.connection_setPool _ _ _)
      · change ((s.setPool key (s.pool key)).pool (.str k)).turn = none
        rw [pool_setPool]
        split_ifs with hk
        · rw [hk]
          exact h.drained k
        · exact h.drained k
    · rename_i rank _
      obtain ⟨hcn, had, hsm⟩ := hkp ((s.pool key).bid rank c) rfl fun b hb => by
        rcases mem_snoc.1 hb with hb | rfl
        · exact h.bidder_of_mem hb
        · exact hc
      obtain ⟨t, hrun, ht, had', hof, hfr, -, htr⟩ := exists_settle_drained hcn fun k hk => by
        rw [pool_setPool, if_neg hk]
        exact h.drained k
      rw [run_updatePool_bind, hrun]
      refine ⟨⟨ht, hls (fun c => ?_) (fun k o ho => hsm k ▸ hfr k o ho), htr⟩, had.trans had'⟩
      rw [hof, connection_setPool]
  split
  · exact ⟨h, refl s⟩
  · exact hbdn ()

/-- Nothing is changed in a connection that has to do with offers, and what is known of it grows. -/
lemma keeps_update (c : Nat) {f : Connection → Connection}
    (hin : ∀ x, x.info.contains "key" = true → (f x).info.contains "key" = true)
    (hks : ∀ x, (f x).matchKeys = x.matchKeys := by intro; rfl) (hof : ∀ x, (f x).offers = x.offers := by intro; rfl)
    (hot : ∀ x, (f x).outbox = x.outbox := by intro; rfl) : Keeps bidder (update c f) := by
  intro s h
  have hcn : Continues s (s.update c f) := .update s c hks hof (hin _) (by rw [hot]; exact id)
  have hrun : (update c f).run.run s = (.ok (), s.update c f) := rfl
  rw [hrun]
  refine ⟨h.of_stays hcn fun c' hc => ?_, of_continues hcn (s.length_update c f) rfl⟩
  rwa [isOpen_update hot]

lemma keeps_merge (c : Nat) (info : Keyed String Json) :
    Keeps bidder (update c fun x => { x with info := x.info.merge info }) :=
  keeps_update c fun _ hc =>
    Keyed.contains_iff.2 (Keyed.mem_keys_merge.2 (.inl (Keyed.contains_iff.1 hc)))

lemma keeps_handle {message : Message} (hput : ∀ key port matchKey host, message ≠ .put key port matchKey host)
    (hrq : ∀ key priority, message = .request key priority → bidder c) : Keeps bidder (handle c message) := by
  cases message with
  | put key port matchKey host => exact absurd rfl (hput key port matchKey host)
  | request key priority => exact keeps_handleRequest (hrq key priority rfl) key priority
  | ping => exact keeps_reply c _
  | matchKeys => exact .read fun _ => keeps_reply c _
  | stop key =>
    refine .read fun s => ?_
    split
    · exact (keeps_reply c _).bind fun _ => keeps_stopServer
    · exact keeps_reply c _
  | update info => exact .read fun _ => .bind (.orStop _) fun _ => (keeps_merge c _).bind fun _ => keeps_reply c _
  | summary => exact .read fun _ => .bind (.orStop _) fun _ => keeps_reply c _
  | unknown => exact keeps_close c

lemma Consistent.list {o : Offer} (h : Consistent bidder [] s) (hbd : ¬ bidder o.owner)
    (hin : (s.connection o.owner).info.contains "key" = true) (hkey : poolKey o.matchKey = .ok k)
    (hpl : s.HasPool k) : Consistent bidder [] (s.update o.owner fun x => { x with offers := x.offers ++ [o] }) := by
  refine ⟨h.toFiled.update (h.nodup _) fun o' ho' => ?_, fun k' o' ho' => ?_, fun c hc j => ?_⟩
  · rcases mem_snoc.1 ho' with hold | rfl
    · exact h.offers _ o' hold
    · exact ⟨rfl, hbd, hin, k, hkey, hpl⟩
  · rw [isOpen_update (by intro; rfl)]
    exact h.isOpen k' o' ho'
  · rw [isOpen_update (by intro; rfl)] at hc
    rw [field_update Connection.matchKeys (by intro; rfl)]
    exact h.awaited c hc j

/-- An offer with a new match key is filed and handed out at once if a bid waits, and then its owner
lists it. -/
lemma run_handlePut (hfr : .str m ∉ (s.connection c).matchKeys) (k : String) (port : Json) (host : Option Json) :
    ∃ o : Offer, o.owner = c ∧ o.matchKey = .str m ∧
      (handlePut c (.str k) port (.str m) host).run.run s = (settle (.str k) >>= fun _ =>
        update c (fun x => { x with offers := x.offers ++ [o] }) >>= fun _ =>
          reply settle c successCode).run.run (s.offered k o) := by
  let noted (x : Connection) : Connection :=
    { x with matchKeys := if x.matchKeys.contains (.str m) then x.matchKeys else x.matchKeys ++ [.str m] }
  have hsm : s.update c noted = s.update c fun x => { x with matchKeys := x.matchKeys ++ [.str m] } :=
    update_congr (by simp only [noted]; rw [if_neg fun e => hfr (contains_str.1 e)])
  refine ⟨⟨c, host.getD (.str (s.connection c).host), port, .str m⟩, rfl, rfl, ?_⟩
  rw [offered, ← hsm]
  rfl

/-- An offer of an open connection that has named its key, with a new match key of the key under
which it is put. -/
lemma steady_handlePut (h : Steady bidder [] s) (hlt : c < s.connections.length) (hop : s.isOpen c)
    (hbd : ¬ bidder c) (hinf : (s.connection c).info.contains "key" = true) (hkey : poolKey (.str m) = .ok k)
    (hfr : ∀ c', .str m ∉ (s.connection c').matchKeys) (port : Json) (host : Option Json) :
    Steady bidder [] ((handlePut c (.str k) port (.str m) host).run.run s).2 ∧
      Advances [(c, .str m)] s ((handlePut c (.str k) port (.str m) host).run.run s).2 := by
  obtain ⟨o, rfl, hm, hrun⟩ := run_handlePut (hfr c) k port host
  rw [← hm] at hkey hfr
  have hof : Advances [(o.owner, .str m)] s (s.offered k o) := by
    have hup : Advances [(o.owner, .str m)] s
        (s.update o.owner fun x => { x with matchKeys := x.matchKeys ++ [o.matchKey] }) :=
      Advances.update s o.owner (fun _ => rfl) (fun _ => rfl) (by simp [hm])
    exact hup.trans (of_connections_eq (connections_setPool _ _ _) (calls_setPool _ _ _))
  obtain ⟨t, hstl, ht, hst, hofr, hfre, hpl, htr⟩ := exists_settle_drained
    (h.toConsistent.offer hlt hop hbd hkey hfr) fun k' hk' => by
      rw [offered, pool_setPool, if_neg hk']
      exact h.drained k'
  have hcn := ht.list hbd (hst.info _ (hof.info _ hinf)) hkey (hpl k (hasPool_setPool_self _ k _))
  have hls (k' : String) (o' : Offer) (ho' : o' ∈ t.free k') :
      o' ∈ ((t.update o.owner fun x => { x with offers := x.offers ++ [o] }).connection o'.owner).offers := by
    have hcs := t.connection_update_or o.owner (fun x => { x with offers := x.offers ++ [o] }) o'.owner
    rcases mem_free_offered.1 (hfre k' o' ho') with hold | ⟨-, rfl⟩
    · have hin : o' ∈ (t.connection o'.owner).offers := by
        rw [hofr, offered, connection_setPool, field_update Connection.offers (by intro; rfl)]
        exact h.listed k' o' hold
      rcases hcs with e | ⟨-, e⟩
      · rwa [e]
      · rw [e]
        exact mem_append_left _ hin
    · have hlt' : o'.owner < t.connections.length := by rwa [hst.length, hof.length]
      rw [connection_update_self hlt']
      exact mem_append_right _ mem_cons_self
  have hlst : Advances [] t (t.update o.owner fun x => { x with offers := x.offers ++ [o] }) :=
    .update t o.owner (fun _ => rfl) (fun _ => rfl) fun _ => .inl
  obtain ⟨hstd, hrp⟩ := keeps_reply o.owner successCode _ ⟨hcn, hls, htr⟩
  rw [hrun, step_bind_run, hstl]
  exact ⟨hstd, hof.trans (hst.trans (hlst.trans hrp))⟩

end Messages

/-! ### Discipline of servers and clients

A server names its key before it makes offers, makes each under its key with a match key of its own,
and bids for nothing. What such values do to a tracker, and what it knows after them.
-/

/-- The match key of the offer that a value makes, if it makes one. -/
def offeredKey? (v : Json) : Option Json :=
  match Message.ofJson v with
  | .ok (.put _ _ matchKey _) => some matchKey
  | _ => none

/-- Whether a value bids for an offer. -/
def isBid (v : Json) : Bool :=
  match Message.ofJson v with
  | .ok (.request _ _) => true
  | _ => false

/-- A value by which a connection names its key, with an address as the tracker expects it. -/
def Announces (v : Json) : Prop :=
  ∃ info address first, Message.ofJson v = .ok (.update info) ∧ (info.lookup "key").isSome = true ∧
    info.lookup "addr" = some address ∧ headOf address = .ok first

/-- The values that connections send: one that makes offers has named its key before, makes each
under its key with a match key that is the key and something after a colon, and bids for nothing; no
two offers have the same match key. -/
structure Disciplined (values : Nat → List Json) : Prop where
  announced : ∀ c earlier v later, values c = earlier ++ v :: later → (offeredKey? v).isSome = true →
    ∃ w ∈ earlier, Announces w
  keyed : ∀ c, ∀ v ∈ values c, ∀ key port matchKey host, Message.ofJson v = .ok (.put key port matchKey host) →
    ∃ k random, ':' ∉ random.toList ∧ key = .str k ∧ matchKey = .str (k ++ ":" ++ random)
  distinct : ∀ c, ((values c).filterMap offeredKey?).Nodup
  disjoint : ∀ c c', c ≠ c' → ((values c).filterMap offeredKey?).Disjoint ((values c').filterMap offeredKey?)
  apart : ∀ c, ∀ v ∈ values c, ∀ w ∈ values c, (offeredKey? v).isSome = true → isBid w = false

/-- The key of a match key is found before its last colon. -/
lemma poolKey_append {random : String} (h : ':' ∉ random.toList) (k : String) :
    poolKey (.str (k ++ ":" ++ random)) = .ok k := by
  have hrv : (k ++ ":" ++ random).toList.reverse = random.toList.reverse ++ ':' :: k.toList.reverse := by simp
  have hdr : (random.toList.reverse ++ ':' :: k.toList.reverse).dropWhile (· != ':') = ':' :: k.toList.reverse := by
    rw [dropWhile_append_of_pos fun x hx => ?_]
    · simp
    · have hne : x ≠ ':' := by
        rintro rfl
        exact h (mem_reverse.1 hx)
      simpa using hne
  rw [poolKey, hrv, hdr]
  simp

lemma offeredKey?_eq_some {v j : Json} :
    offeredKey? v = some j ↔ ∃ key port host, Message.ofJson v = .ok (.put key port j host) := by
  rw [offeredKey?]
  split
  · rename_i key port matchKey host hv
    simp [hv]
  · rename_i hne
    constructor
    · intro h
      cases h
    · rintro ⟨key, port, host, hv⟩
      exact absurd hv (hne key port j host)

/-! ### Answers -/

section Answers

variable {s : Server} {c : Nat} {v : Json}

lemma steady_handleValue_of_none (h : Steady bidder [] s) (hv : offeredKey? v = none) (hbid : isBid v → bidder c) :
    Steady bidder [] ((handleValue c v).run.run s).2 ∧ Advances [] s ((handleValue c v).run.run s).2 := by
  rw [handleValue]
  cases hms : Message.ofJson v with
  | error e => exact ⟨h, .refl s⟩
  | ok message =>
    refine keeps_handle (fun key port matchKey host e => ?_) (fun key priority e => hbid ?_) s h
    · rw [offeredKey?_eq_some.2 ⟨key, port, host, e ▸ hms⟩] at hv
      cases hv
    · rw [isBid, hms, e]

/-- The answer to an offer, made with a new match key by an open connection that has named its
key. -/
lemma steady_handleValue_of_some (h : Steady bidder [] s) (hlt : c < s.connections.length) (hop : s.isOpen c)
    (hbd : ¬ bidder c) (hin : (s.connection c).info.contains "key" = true) {port : Json}
    {host : Option Json} (hv : Message.ofJson v = .ok (.put (.str k) port (.str m) host))
    (hkey : poolKey (.str m) = .ok k) (hfr : ∀ c', .str m ∉ (s.connection c').matchKeys) :
    Steady bidder [] ((handleValue c v).run.run s).2 ∧ Advances [(c, .str m)] s ((handleValue c v).run.run s).2 := by
  rw [handleValue, run_orStop_bind hv]
  exact steady_handlePut h hlt hop hbd hin hkey hfr port host

lemma exists_fillAddress {info : List (String × Json)} {address first : Json}
    (had : info.lookup "addr" = some address) (hfst : headOf address = .ok first) (host : String) :
    ∃ filled, fillAddress info host = .ok filled ∧ filled.map Prod.fst = info.map Prod.fst := by
  rw [fillAddress, had, orFail, ok_bind, hfst, ok_bind]
  split
  · refine ⟨_, rfl, ?_⟩
    rw [map_map]
    refine map_congr_left fun p _ => ?_
    rw [Function.comp]
    split
    split <;> rfl
  · exact ⟨info, rfl, rfl⟩

lemma contains_of_announces (h : Steady bidder [] s) (hlt : c < s.connections.length) (hv : Announces v) :
    (((handleValue c v).run.run s).2.connection c).info.contains "key" = true := by
  obtain ⟨info, address, first, hms, hkey, had, hfst⟩ := hv
  obtain ⟨filled, hfl, hns⟩ := exists_fillAddress had hfst (s.connection c).host
  obtain ⟨hst, -⟩ := keeps_merge c ⟨filled⟩ s h
  obtain ⟨-, hrp⟩ := keeps_reply c successCode _ hst
  have hmr : ((s.update c fun x => { x with info := x.info.merge ⟨filled⟩ }).connection c).info.contains "key" =
      true := by
    rw [connection_update_self hlt, Keyed.contains_iff, Keyed.mem_keys_merge]
    refine .inr ?_
    obtain ⟨p, hp, hnm⟩ := lookup_isSome_iff.1 hkey
    rw [Keyed.keys, hns, beq_iff_eq.1 hnm]
    exact mem_map_of_mem hp
  rw [handleValue, run_orStop_bind hms, handle, run_connection_bind, run_orStop_bind hfl]
  exact hrp.info c hmr

end Answers

end TensorToolchain.Tracker
