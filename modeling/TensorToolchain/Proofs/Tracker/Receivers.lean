import TensorToolchain.Proofs.Faults
import TensorToolchain.Tracker.Server

/-!
# Answering leaves receivers alone

A step is indifferent to the receiver of a connection if it goes on in the same way whatever the
receiver holds, and leaves it as it is; the answer to every message is such a step.
-/

namespace TensorToolchain.Tracker

open List Connection

variable {α β : Type} {c : Nat} {s : Server} {x : Tracking α} {f : Connection → Connection}

/-- A connection with another receiver. -/
def Connection.hear (x : Connection) (receiver : Receiver) : Connection := { x with receiver }

/-- The tracker with another receiver on one connection. -/
def Server.hear (s : Server) (c : Nat) (receiver : Receiver) : Server := s.update c (·.hear receiver)

/-! ### One connection -/

namespace Server

lemma connection_update_self (hc : c < s.connections.length) (f : Connection → Connection) :
    (s.update c f).connection c = f (s.connection c) := by
  simp [connection, update, hc]

lemma connection_update_of_ne {c' : Nat} (s : Server) (h : c ≠ c') (f : Connection → Connection) :
    (s.update c f).connection c' = s.connection c' := by
  simp [connection, update, h]

lemma length_update (s : Server) (c : Nat) (f : Connection → Connection) :
    (s.update c f).connections.length = s.connections.length := length_modify ..

lemma connection_hear (s : Server) (c c' : Nat) (r : Receiver) :
    ∃ r', (s.hear c r).connection c' = (s.connection c').hear r' := by
  by_cases hc : c = c' ∧ c < s.connections.length
  · obtain ⟨rfl, hlt⟩ := hc
    exact ⟨r, connection_update_self hlt _⟩
  · refine ⟨(s.connection c').receiver, ?_⟩
    by_cases h : c = c'
    · subst h
      have hlen : ¬c < s.connections.length := fun hlt => hc ⟨rfl, hlt⟩
      simp [hear, connection, update, hlen, Connection.hear]
    · rw [hear, connection_update_of_ne s h]
      rfl

lemma hear_hear (s : Server) (c : Nat) (r r' : Receiver) : (s.hear c r).hear c r' = s.hear c r' := by
  simp only [hear, update, modify_modify_eq]
  rfl

lemma connection_hear_self (hc : c < s.connections.length) (r : Receiver) :
    (s.hear c r).connection c = (s.connection c).hear r := connection_update_self hc _

lemma update_congr {g : Connection → Connection} (h : f (s.connection c) = g (s.connection c)) :
    s.update c f = s.update c g := by
  have hsm : s.connections.modify c f = s.connections.modify c g := by
    refine ext_getElem? fun i => ?_
    rw [getElem?_modify, getElem?_modify]
    by_cases hi : c = i
    · subst hi
      cases hx : s.connections[c]? with
      | none => rfl
      | some x =>
        have hcn : s.connection c = x := by simp [connection, getD_eq_getElem?_getD, hx]
        rw [hcn] at h
        simp [h]
    · simp [hi]
  rw [update, update, hsm]

lemma hear_self {r : Receiver} (h : (s.connection c).receiver = r) : s.hear c r = s := by
  have hid : (s.connection c).hear r = id (s.connection c) := by
    subst h
    rfl
  rw [hear, update_congr hid, update, modify_id]

/-- A change of a connection that has nothing to do with the receiver can come before or after its
own. -/
lemma hear_update (s : Server) (c' : Nat) (r : Receiver)
    (hf : ∀ (x : Connection) (r : Receiver), f (x.hear r) = (f x).hear r) :
    (s.hear c r).update c' f = (s.update c' f).hear c r := by
  simp only [hear, update]
  congr 1
  refine ext_getElem? fun i => ?_
  simp only [getElem?_modify]
  cases s.connections[i]? with
  | none => rfl
  | some x =>
    by_cases hi : c = i
    · by_cases hi' : c' = i
      · simp [hi, hi', hf]
      · simp [hi, hi']
    · simp [hi]

lemma setPool_hear (s : Server) (key : Json) (r : Receiver) (pool : Pool) :
    (s.hear c r).setPool key pool = (s.setPool key pool).hear c r := by
  by_cases h : (s.pools.any (·.1 == key)) = true <;> simp [setPool, hear, update, h]

end Server

lemma run_connection_bind (f : Connection → Tracking α) (s : Server) :
    (connection c >>= f).run.run s = (f (s.connection c)).run.run s := rfl

lemma run_update_bind (f : Connection → Connection) (g : Unit → Tracking α) (s : Server) :
    (update c f >>= g).run.run s = (g ()).run.run (s.update c f) := rfl

lemma run_updatePool_bind (key : Json) (f : Pool → Pool) (g : Unit → Tracking α) (s : Server) :
    (updatePool key f >>= g).run.run s = (g ()).run.run (s.setPool key (f (s.pool key))) := rfl

lemma run_orStop_bind {a : α} {r : Except Fault α} (h : r = .ok a) (f : α → Tracking β) (s : Server) :
    (orStop r >>= f).run.run s = (f a).run.run s := by
  rw [h]
  rfl

/-! ### Indifferent steps -/

/-- A step that does the same whatever the receiver of a connection holds, and leaves it as it is;
the connection stays there, and stays greeted if it is. -/
structure Indifferent (c : Nat) (x : Tracking α) : Prop where
  run_hear : ∀ (s : Server) (r : Receiver), x.run.run (s.hear c r) = ((x.run.run s).1, (x.run.run s).2.hear c r)
  length_le : ∀ s : Server, s.connections.length ≤ (x.run.run s).2.connections.length
  greeted : ∀ s : Server, c < s.connections.length → ((x.run.run s).2.connection c).greeted = (s.connection c).greeted

namespace Indifferent

lemma ret (a : α) : Indifferent c (pure a : Tracking α) := ⟨fun _ _ => rfl, fun _ => le_refl _, fun _ _ => rfl⟩

lemma refuse (e : Fault) : Indifferent c (throw e : Tracking α) := ⟨fun _ _ => rfl, fun _ => le_refl _, fun _ _ => rfl⟩

lemma orStop (r : Except Fault α) : Indifferent c (Tracker.orStop r) :=
  ⟨fun _ _ => rfl, fun _ => le_refl _, fun _ _ => rfl⟩

/-- A step and another one after it that depends on its answer. -/
lemma followed {y : Tracking β} (next : Except Fault α → Tracking β) (hx : Indifferent c x)
    (hnx : ∀ r, Indifferent c (next r)) (hy : ∀ s, y.run.run s = (next (x.run.run s).1).run.run (x.run.run s).2) :
    Indifferent c y := by
  constructor
  · intro s r
    rw [hy, hy, hx.run_hear]
    exact (hnx _).run_hear _ r
  · intro s
    rw [hy]
    exact le_trans (hx.length_le s) ((hnx _).length_le _)
  · intro s hc
    rw [hy]
    exact ((hnx _).greeted _ (lt_of_lt_of_le hc (hx.length_le s))).trans (hx.greeted s hc)

lemma bind {f : α → Tracking β} (hx : Indifferent c x) (hf : ∀ a, Indifferent c (f a)) : Indifferent c (x >>= f) := by
  refine hx.followed (·.casesOn (throw) f) (fun r => ?_) fun s => ?_
  · cases r with
    | ok a => exact hf a
    | error e => exact refuse e
  · rw [step_bind_run]
    rcases x.run.run s with ⟨_ | _, _⟩ <;> rfl

/-- A refusal of the system is answered by another step. -/
lemma orElse {y : Tracking α} (hx : Indifferent c x) (hy : Indifferent c y) : Indifferent c (Tracker.orElse x y) := by
  refine hx.followed (fun r => r.casesOn (fun e => if e.kind = .system then y else throw e) pure) (fun r => ?_)
    fun s => ?_
  · cases r with
    | ok a => exact ret a
    | error e =>
      dsimp only
      split
      · exact hy
      · exact refuse e
  · rw [Tracker.orElse, step_tryCatch_run]
    rcases x.run.run s with ⟨_ | _, _⟩ <;> rfl

/-- A question about the tracker whose answer does not depend on the receiver. -/
lemma read {f : Server → Tracking α} (hsm : ∀ {r}, (fun s => f (s.hear c r)) = f)
    (hf : ∀ s, Indifferent c (f s)) : Indifferent c (get >>= f) := by
  constructor
  · intro s r
    change (f (s.hear c r)).run.run (s.hear c r) = _
    rw [congrFun hsm s]
    exact (hf s).run_hear s r
  · exact fun s => (hf s).length_le s
  · exact fun s hc => (hf s).greeted s hc

lemma connection {f : Connection → Tracking α} (c' : Nat) (hsm : ∀ {r}, (fun x => f (x.hear r)) = f)
    (hf : ∀ x, Indifferent c (f x)) : Indifferent c (Tracker.connection c' >>= f) := by
  refine read (fun {r} => funext fun s => ?_) fun s => hf _
  obtain ⟨r', hr'⟩ := s.connection_hear c c' r
  rw [hr', congrFun hsm]

lemma update (c' : Nat) (hf : ∀ {r}, (fun x => f (x.hear r)) = fun x => (f x).hear r)
    (hgr : (fun x => (f x).greeted) = Connection.greeted) : Indifferent c (Tracker.update c' f) := by
  constructor
  · intro s r
    exact Prod.ext rfl (s.hear_update c' r fun x _ => congrFun hf x)
  · exact fun s => le_of_eq (s.length_update c' f).symm
  · intro s hc
    change ((s.update c' f).connection c).greeted = _
    by_cases h : c' = c
    · subst h
      rw [Server.connection_update_self hc, congrFun hgr]
    · rw [Server.connection_update_of_ne s h]

lemma change {f : Server → Server} (hsm : ∀ (s : Server) (r : Receiver), f (s.hear c r) = (f s).hear c r)
    (hkp : ∀ s, (f s).connections = s.connections) : Indifferent c (modify f : Tracking Unit) := by
  constructor
  · intro s r
    exact Prod.ext rfl (hsm s r)
  · intro s
    exact le_of_eq (congrArg length (hkp s)).symm
  · intro s _
    change ((f s).connection c).greeted = _
    rw [Server.connection, hkp]
    rfl

lemma forM {f : β → Tracking PUnit} (hf : ∀ b, Indifferent c (f b)) (bs : List β) : Indifferent c (bs.forM f) := by
  induction bs with
  | nil => exact ret _
  | cons b bs ih => exact (hf b).bind fun _ => ih

lemma updatePool (key : Json) (f : Pool → Pool) : Indifferent c (Tracker.updatePool key f) := by
  refine change (fun s r => s.setPool_hear key r _) fun s => ?_
  rw [Server.setPool]
  split <;> rfl

end Indifferent

/-! ### Closing and writing -/

section Closing

variable {settle : Json → Tracking Unit} (hsettle : ∀ key, Indifferent c (settle key))

include hsettle

lemma indifferent_withdraw (offer : Offer) : Indifferent c (withdraw settle offer) := by
  refine .bind (.orStop _) fun key => .read rfl fun s => ?_
  extract_lets removing
  have hrm (u : PUnit) : Indifferent c (removing u) := by
    dsimp only [removing]
    split
    · exact .bind (.updatePool _ _) fun _ => hsettle _
    · exact .ret _
  split
  · exact .bind (.refuse _) hrm
  · exact hrm ⟨⟩

lemma indifferent_release (c' : Nat) : Indifferent c (release settle c') := by
  refine .connection c' rfl fun x => ?_
  refine .bind (.update c' rfl rfl) fun _ => ?_
  split
  · exact .forM (indifferent_withdraw hsettle) _
  · exact .ret _

lemma indifferent_close (c' : Nat) : Indifferent c (close settle c') := by
  refine .connection c' rfl fun x => ?_
  split
  · exact .bind (.update c' rfl rfl) fun _ => indifferent_release hsettle c'
  · exact .ret _

lemma indifferent_setOutbox (c' : Nat) (outbox : Outbox) : Indifferent c (setOutbox settle c' outbox) := by
  refine .bind (.update c' rfl rfl) fun _ => ?_
  split
  · exact indifferent_release hsettle c'
  · exact .ret _

lemma indifferent_write (c' : Nat) (bytes : List UInt8) : Indifferent c (write settle c' bytes) :=
  .connection c' rfl fun _ =>
    .bind (.orStop _) (indifferent_setOutbox hsettle c' ·)

lemma indifferent_reply (c' : Nat) (value : Json) : Indifferent c (reply settle c' value) :=
  (indifferent_write hsettle c' _).bind fun _ => indifferent_write hsettle c' _

lemma indifferent_handOver (offer : Offer) (c' : Nat) : Indifferent c (handOver settle offer c') := by
  refine .connection c' rfl fun x => ?_
  split
  · exact .ret _
  · exact .orElse ((indifferent_reply hsettle c' _).bind fun _ => .ret _) (.ret _)

end Closing

lemma indifferent_strike (offer : Offer) : Indifferent c (strike offer) := by
  refine .connection offer.owner rfl fun x => ?_
  split
  · exact .bind (.refuse _) fun _ => .update _ rfl rfl
  · exact .update _ rfl rfl

lemma indifferent_settleFor (fuel : Nat) (key : Json) : Indifferent c (settleFor fuel key) := by
  induction fuel generalizing key with
  | zero => exact .ret _
  | succ fuel ih =>
    refine .read rfl fun s => ?_
    split
    · exact .ret _
    · rename_i offer bid pool _
      refine .bind (.updatePool _ _) fun _ => (indifferent_handOver ih offer _).bind fun accepted => ?_
      refine .bind (.change (by intros; rfl) (by intros; rfl)) fun _ => ?_
      split
      · exact (indifferent_strike offer).bind fun _ => ih key
      · exact .bind (.updatePool _ _) fun _ => ih key

lemma indifferent_settle (key : Json) : Indifferent c (settle key) :=
  .read rfl fun _ => indifferent_settleFor _ key

/-! ### Messages -/

lemma map_info_filter_modify (xs : List Connection) (r : Receiver) :
    ((xs.modify c (·.hear r)).filter registered).map info = (xs.filter registered).map info := by
  induction xs generalizing c with
  | nil => rw [modify_nil]
  | cons x xs ih =>
    cases c with
    | zero =>
      rw [modify_zero_cons, filter_cons, filter_cons]
      change (if x.registered = true then _ else _ : List Connection).map _ = _
      split <;> rfl
    | succ c =>
      rw [modify_succ_cons, filter_cons, filter_cons]
      split
      · rw [map_cons, map_cons, ih]
      · exact ih

/-- Which connections are those of servers is seen from what is known about them. -/
lemma map_info_filterAuxM (xs acc : List Connection) : (List.filterAuxM isServer xs acc).map (List.map info) =
      List.filterAuxM (fun info => isServer { host := "", info }) (xs.map info) (acc.map info) := by
  induction xs generalizing acc with
  | nil => rfl
  | cons x xs ih =>
    have hsm : isServer { host := "", info := x.info } = x.isServer := rfl
    rw [map_cons, filterAuxM, filterAuxM, hsm]
    cases x.isServer with
    | error e => rfl
    | ok b => cases b <;> exact ih _

lemma serverInfo_eq (s : Server) : s.serverInfo = (List.filterAuxM (fun info => isServer { host := "", info })
      ((s.connections.filter registered).map info) []).map
        fun infos => infos.reverse.map fun info => .obj info.entries := by
  rw [Server.serverInfo, filterM, ← map_nil (f := info), ← map_info_filterAuxM]
  cases filterAuxM isServer _ [] with
  | error e => rfl
  | ok xs =>
    change Except.ok (xs.reverse.map _) = .ok ((xs.map info).reverse.map _)
    rw [← map_reverse, map_map]
    rfl

lemma summary_hear (s : Server) (r : Receiver) : (s.hear c r).summary = s.summary := by
  have hin : (s.hear c r).serverInfo = s.serverInfo := by
    rw [serverInfo_eq, serverInfo_eq, ← map_info_filter_modify s.connections r]
    rfl
  rw [Server.summary, hin]
  rfl

lemma indifferent_handlePut (c' : Nat) (key port matchKey : Json) (host : Option Json) :
    Indifferent c (handlePut c' key port matchKey host) := by
  refine .connection c' rfl fun x => ?_
  extract_lets offer offering noting
  have hof (u : Unit) : Indifferent c (offering u) :=
    .bind (.updatePool _ _) fun _ => (indifferent_settle _).bind fun _ =>
      .bind (.update _ rfl rfl) fun _ => indifferent_reply indifferent_settle _ _
  have hnt (u : Unit) : Indifferent c (noting u) := by
    refine .bind (.update _ rfl rfl) fun _ => ?_
    split
    · exact .bind (.refuse _) hof
    · exact hof ()
  split
  · exact .bind (.refuse _) hnt
  · exact hnt ()

lemma indifferent_handleRequest (c' : Nat) (key priority : Json) : Indifferent c (handleRequest c' key priority) := by
  unfold handleRequest
  extract_lets bidding
  have hbd (u : Unit) : Indifferent c (bidding u) := by
    dsimp only [bidding]
    split
    · exact .bind (.updatePool _ _) fun _ => .refuse _
    · exact .bind (.updatePool _ _) fun _ => indifferent_settle _
  split
  · exact .bind (.refuse _) hbd
  · exact hbd ()

lemma indifferent_stopServer : Indifferent c stopServer := by
  refine .read (fun {r} => funext fun s => ?_) fun s => .forM (indifferent_close indifferent_settle) _
  have hrg (c' : Nat) : ((s.hear c r).connection c').registered = (s.connection c').registered := by
    obtain ⟨r', hr'⟩ := s.connection_hear c c' r
    rw [hr']
    rfl
  have hlen : (s.hear c r).connections.length = s.connections.length := s.length_update c _
  simp only [hrg, hlen]

lemma indifferent_handle (c' : Nat) (message : Message) : Indifferent c (handle c' message) := by
  cases message with
  | put key port matchKey host => exact indifferent_handlePut c' key port matchKey host
  | request key priority => exact indifferent_handleRequest c' key priority
  | ping => exact indifferent_reply indifferent_settle c' _
  | matchKeys => exact .connection c' rfl fun _ => indifferent_reply indifferent_settle c' _
  | stop key =>
    refine .read rfl fun s => ?_
    split
    · exact (indifferent_reply indifferent_settle c' _).bind fun _ => indifferent_stopServer
    · exact indifferent_reply indifferent_settle c' _
  | update info =>
    exact .connection c' rfl fun _ => .bind (.orStop _) fun _ =>
      .bind (.update _ rfl rfl) fun _ => indifferent_reply indifferent_settle c' _
  | summary =>
    exact .read (funext fun s => by rw [summary_hear]) fun s => .bind (.orStop _) fun _ =>
      indifferent_reply indifferent_settle c' _
  | unknown => exact indifferent_close indifferent_settle c'

lemma indifferent_handleValue (c' : Nat) (value : Json) : Indifferent c (handleValue c' value) :=
  .bind (.orStop _) (indifferent_handle c' ·)

end TensorToolchain.Tracker
