import TensorToolchain.Proofs.Tracker.OfferUpkeep
import TensorToolchain.Proofs.Tracker.Streams

/-!
# Lifetimes of offers

An offer ends with the connection that made it: once the connection is closed, none of its offers is
free or handed out again, and while it is open it awaits exactly the match keys of its offers that
are free.
-/

namespace TensorToolchain.Tracker

open List Server

/-- A message that is answered: where it comes from, what it says, and the tracker before and after
the answer. -/
structure Answering where
  connection : Nat
  value : Json
  (before after : Server)

/-- The messages that are answered, of the frames that a connection holds. -/
def answerings (c : Nat) : Nat → Server → List Answering
  | 0, _ => []
  | fuel + 1, s =>
    let next := (s.connection c).receiver.next
    let before := s.hear c next.2
    match next.1.map readText with
    | some (.ok value) =>
      let answer := (handleValue c value).run.run before
      ⟨c, value, before, answer.2⟩ :: if answer.1.isOk then answerings c fuel answer.2 else []
    | _ => []

/-- The messages that are answered at an event. -/
def Event.answerings (s : Server) : Event → List Answering
  | .chunk c bytes =>
    let fed := s.hear c ((s.connection c).receiver.feed bytes)
    if s.isOpen c && (s.connection c).greeted then
      Tracker.answerings c ((fed.connection c).receiver.buffer.length + 1) fed
    else []
  | _ => []

/-- The messages that are answered in the course of events. -/
def Server.answerings (s : Server) : List Event → List Answering
  | [] => []
  | event :: events => event.answerings s ++ (s.after event).answerings events

/-- The trackers after each message and after each event. -/
def Server.course (s : Server) : List Event → List Server
  | [] => []
  | event :: events => (event.answerings s).map Answering.after ++ s.after event :: (s.after event).course events

def valuesOf (answered : List Answering) (c : Nat) : List Json :=
  (answered.filter (·.connection == c)).map Answering.value

/-- Whether a message makes no offer for a connection that is closed. -/
def Answering.prompt (a : Answering) : Bool := (offeredKey? a.value).isNone || a.before.isOpen a.connection

lemma valuesOf_append (answered answered' : List Answering) (c : Nat) :
    valuesOf (answered ++ answered') c = valuesOf answered c ++ valuesOf answered' c := by
  rw [valuesOf, filter_append, map_append, valuesOf, valuesOf]

lemma valuesOf_cons_self (a : Answering) (answered : List Answering) :
    valuesOf (a :: answered) a.connection = a.value :: valuesOf answered a.connection := by
  simp [valuesOf]

lemma valuesOf_cons_of_ne {a : Answering} {c : Nat} (h : c ≠ a.connection) (answered : List Answering) :
    valuesOf (a :: answered) c = valuesOf answered c := by
  simp [valuesOf, symm h]

/-! ### How offers fare -/

/-- Some connection bids for offers. -/
def Bids (values : Nat → List Json) (c : Nat) : Prop := ∃ v ∈ values c, isBid v = true

/-- Of all messages, those of the `past` are answered: offers are steady, connections await what
they have offered, and those that have named their keys are known by them. -/
structure Following (all past : List Answering) (s : Server) : Prop where
  steady : Steady (Bids (valuesOf all)) [] s
  keys : ∀ c, ∀ j ∈ (s.connection c).matchKeys, j ∈ (valuesOf past c).filterMap offeredKey?
  announced : ∀ c, ∀ v ∈ valuesOf past c, Announces v → (s.connection c).info.contains "key" = true

/-- From a tracker at which the `past` was answered, the answers to some messages lead to
another. -/
structure Leads (all past : List Answering) (s : Server) (answered : List Answering) (t : Server) : Prop where
  following : Following all (past ++ answered) t
  steady : ∀ a ∈ answered, Steady (Bids (valuesOf all)) [] a.after
  chain : (s :: answered.map Answering.after).Pairwise Later
  last : ∀ u ∈ s :: answered.map Answering.after, Later u t

section Course

variable {all past answered rest : List Answering} {a : Answering} {s t u : Server} {c : Nat} {v : Json}

lemma Following.keeps {α : Type} {step : Tracking α} (h : Following all past s)
    (hkp : Keeps (Bids (valuesOf all)) step) : Following all past (step.run.run s).2 ∧ Later s (step.run.run s).2 := by
  obtain ⟨hst, had⟩ := hkp s h.steady
  refine ⟨⟨hst, fun c j hj => h.keys c j ?_, fun c v hv han => ?_⟩, had.toLater⟩
  · exact (had.matchKeys c j hj).resolve_right not_mem_nil
  · exact had.info c (h.announced c v hv han)

namespace Leads

lemma nil (h : Following all past t ∧ Later s t) : Leads all past s [] t where
  following := by simpa using h.1
  steady := by simp
  chain := pairwise_singleton ..
  last := by simpa using h.2

lemma cons (h : Following all (past ++ [a]) a.after) (hlt : Later s a.after)
    (hnx : Leads all (past ++ [a]) a.after answered t) : Leads all past s (a :: answered) t where
  following := by simpa using hnx.following
  steady := by
    rw [forall_mem_cons]
    exact ⟨h.steady, hnx.steady⟩
  chain := by
    have hch := hnx.chain
    refine pairwise_cons.2 ⟨fun u hu => ?_, hch⟩
    rcases mem_cons.1 hu with rfl | hu
    · exact hlt
    · exact hlt.trans ((pairwise_cons.1 hch).1 u hu)
  last := by
    rw [forall_mem_cons]
    exact ⟨hlt.trans (hnx.last _ mem_cons_self), hnx.last⟩

lemma head (hlt : Later u s) (h : Leads all past s answered t) : Leads all past u answered t where
  __ := h
  chain := by
    obtain ⟨hfst, hr⟩ := pairwise_cons.1 h.chain
    exact pairwise_cons.2 ⟨fun v hv => hlt.trans (hfst v hv), hr⟩
  last := by
    obtain ⟨hfst, hr⟩ := forall_mem_cons.1 h.last
    exact forall_mem_cons.2 ⟨hlt.trans hfst, hr⟩

lemma tail (h : Leads all past s answered t) (hu : Following all (past ++ answered) u) (hlt : Later t u) :
    Leads all past s answered u where
  __ := h
  following := hu
  last v hv := (h.last v hv).trans hlt

end Leads

/-! ### Answering -/

section

variable (hall : all = past ++ a :: rest)
include hall

lemma valuesOf_split : valuesOf all a.connection = valuesOf past a.connection ++ a.value :: valuesOf rest a.connection := by
  rw [hall, valuesOf_append, valuesOf_cons_self]

variable (hvalues : Disciplined (valuesOf all))
include hvalues

lemma Following.notMem_matchKeys (h : Following all past s) {j : Json} (hj : offeredKey? a.value = some j) (c : Nat) :
    j ∉ (s.connection c).matchKeys := by
  intro hmem
  have hps := h.keys c j hmem
  by_cases hc : c = a.connection
  · subst hc
    have hnd := hvalues.distinct a.connection
    rw [valuesOf_split hall, filterMap_append, filterMap_cons_some hj, nodup_append] at hnd
    exact hnd.2.2 j hps j mem_cons_self rfl
  · have hin : j ∈ (valuesOf all a.connection).filterMap offeredKey? := by
      rw [valuesOf_split hall]
      exact mem_filterMap.2 ⟨a.value, mem_append_right _ mem_cons_self, hj⟩
    have hin' : j ∈ (valuesOf all c).filterMap offeredKey? := by
      rw [hall, valuesOf_append, filterMap_append]
      exact mem_append_left _ hps
    exact hvalues.disjoint _ c (.symm hc) hin hin'

/-- The answer to the next message keeps offers steady, and nothing but its match key is gained. -/
lemma Following.exists_gained (hprompt : a.prompt) (hlt : a.connection < a.before.connections.length)
    (h : Following all past a.before) :
    Steady (Bids (valuesOf all)) [] ((handleValue a.connection a.value).run.run a.before).2 ∧
      ∃ gained, Advances gained a.before ((handleValue a.connection a.value).run.run a.before).2 ∧
        ∀ p ∈ gained, p.1 = a.connection ∧ offeredKey? a.value = some p.2 := by
  have hsp := valuesOf_split hall
  have hmem : a.value ∈ valuesOf all a.connection := by
    rw [hsp]
    exact mem_append_right _ mem_cons_self
  cases hj : offeredKey? a.value with
  | none =>
    obtain ⟨hst, had⟩ := steady_handleValue_of_none h.steady hj fun hb => ⟨a.value, hmem, hb⟩
    exact ⟨hst, [], had, by simp⟩
  | some j =>
    have hof : (offeredKey? a.value).isSome := by rw [hj, Option.isSome_some]
    have hop : a.before.isOpen a.connection := by simpa [Answering.prompt, hj] using hprompt
    have hbd : ¬ Bids (valuesOf all) a.connection := by
      rintro ⟨w, hw, hb⟩
      rw [hvalues.apart a.connection a.value hmem w hw hof] at hb
      cases hb
    obtain ⟨w, hw, han⟩ := hvalues.announced a.connection _ a.value _ hsp hof
    obtain ⟨key, port, host, hms⟩ := offeredKey?_eq_some.1 hj
    obtain ⟨k, random, hcl, rfl, rfl⟩ := hvalues.keyed a.connection a.value hmem key port j host hms
    obtain ⟨hst, had⟩ := steady_handleValue_of_some h.steady hlt hop hbd
      (h.announced a.connection w hw han) hms (poolKey_append hcl k) (h.notMem_matchKeys hall hvalues hj)
    exact ⟨hst, _, had, by simp⟩

lemma Following.answer (hprompt : a.prompt) (hlt : a.connection < a.before.connections.length)
    (haft : ((handleValue a.connection a.value).run.run a.before).2 = a.after) (h : Following all past a.before) :
    Following all (past ++ [a]) a.after ∧ ∃ gained, Advances gained a.before a.after := by
  obtain ⟨hst, gained, had, hgn⟩ := h.exists_gained hall hvalues hprompt hlt
  have hnm (han : Announces a.value) := contains_of_announces h.steady hlt han
  rw [haft] at hst had hnm
  refine ⟨⟨hst, fun c j hj => ?_, fun c v hv han => ?_⟩, gained, had⟩
  · rw [valuesOf_append, filterMap_append, mem_append]
    refine (had.matchKeys c j hj).imp (h.keys c j) fun hnew => ?_
    obtain ⟨rfl, hkey⟩ := hgn _ hnew
    rw [valuesOf_cons_self]
    exact mem_filterMap.2 ⟨a.value, mem_cons_self, hkey⟩
  · rw [valuesOf_append, mem_append] at hv
    rcases hv with hold | hnew
    · exact had.info c (h.announced c v hold han)
    · by_cases hc : c = a.connection
      · subst hc
        rw [valuesOf_cons_self] at hnew
        obtain rfl := mem_singleton.1 hnew
        exact hnm han
      · rw [valuesOf_cons_of_ne hc] at hnew
        cases hnew

end

lemma keeps_hear (bidder : Nat → Prop) (c : Nat) (receiver : Receiver) :
    Keeps bidder (update c fun x => { x with receiver }) :=
  keeps_update c fun _ => id

lemma Following.hear (h : Following all past s) (c : Nat) (receiver : Receiver) :
    Following all past (s.hear c receiver) ∧ Later s (s.hear c receiver) :=
  h.keeps (keeps_hear _ c receiver)

/-- All complete frames that a connection holds are answered, or all up to one at which it stops. -/
lemma Following.handleFrames (hvalues : Disciplined (valuesOf all)) (hprompt : ∀ a ∈ all, a.prompt)
    (fuel : Nat) (hall : all = past ++ answerings c fuel s ++ rest) (hlt : c < s.connections.length) (h : Following all past s) :
    Leads all past s (answerings c fuel s) ((handleFrames (handleValue c) c fuel).run.run s).2 := by
  induction fuel generalizing past s with
  | zero => exact .nil ⟨h, Later.refl s⟩
  | succ fuel ih =>
    rcases hnx : (s.connection c).receiver.next with ⟨text, receiver⟩
    obtain ⟨hhr, hltr⟩ := h.hear c receiver
    rw [handleFrames, run_connection_bind]
    rw [answerings, hnx] at hall ⊢
    cases text with
    | none => exact .nil ⟨hhr, hltr⟩
    | some text =>
      rw [Option.map_some] at hall ⊢
      dsimp only at hall ⊢
      rw [run_update_bind]
      cases hrd : readText text with
      | error e => exact .nil ⟨hhr, hltr⟩
      | ok v =>
        rw [hrd] at hall
        dsimp only at hall ⊢
        rcases hrun : (handleValue c v).run.run _ with ⟨r, t⟩
        have han : (handleValue c v).run.run (s.update c fun x => { x with receiver }) = (r, t) := hrun
        rw [run_orStop_bind rfl, step_bind_run, han]
        rw [hrun, append_assoc] at hall
        have hlt' : c < (s.hear c receiver).connections.length := (s.length_update c _).symm ▸ hlt
        obtain ⟨hfl, gained, had⟩ := hhr.answer hall hvalues (hprompt _ (by rw [hall]; simp)) hlt'
          (congrArg Prod.snd hrun)
        refine .cons hfl (hltr.trans had.toLater) ?_
        cases r with
        | ok _ => exact ih (by rw [hall]; simp [Except.isOk, Except.toBool]) (had.length ▸ hlt') hfl
        | error e => exact .nil ⟨hfl, .refl t⟩

/-! ### Events -/

lemma keeps_greet (bidder : Nat → Prop) (c : Nat) (bytes : List UInt8) : Keeps bidder (greet c bytes) := by
  have hgr : Keeps bidder (update c fun x => { x with greeted := true }) :=
    keeps_update c fun _ => id
  have hwr : Keeps bidder (write settle c (signedBytes 4 magic) >>= fun _ =>
      update c fun x => { x with greeted := true }) := (keeps_write c _).bind fun _ => hgr
  rw [greet]
  split
  · exact (keeps_close c).bind fun _ => .refuse _
  · split
    · exact (keeps_close c).bind fun _ => hwr
    · exact hwr

lemma keeps_writable (bidder : Nat → Prop) (c : Nat) : Keeps bidder (react (.writable c)) := by
  intro s h
  rw [react, run_connection_bind]
  split_ifs with hop
  · exact steady_setOutbox h hop _
  · exact ⟨h, .refl s⟩

/-- A connection that comes is as one that is not there: it is open, and has offered nothing. -/
lemma continues_connect (s : Server) (host : String) (answers : List SendAnswer) :
    Continues s (s.after (.connect host answers)) ∧ ∀ c, s.isOpen c → (s.after (.connect host answers)).isOpen c := by
  let new : Connection := { host, outbox := { answers } }
  have hcs (c : Nat) : (s.after (.connect host answers)).connection c = s.connection c ∨
      (s.after (.connect host answers)).connection c = new ∧ s.connection c = { host := "" } := by
    have hcn : (s.after (.connect host answers)).connection c = (s.connections ++ [new]).getD c { host := "" } := rfl
    rw [hcn, Server.connection, getD_eq_getElem?_getD, getD_eq_getElem?_getD, getElem?_append]
    split_ifs with hge
    · exact .inl rfl
    · rw [getElem?_eq_none (not_lt.1 hge)]
      cases hc : c - s.connections.length with
      | zero => exact .inr ⟨rfl, rfl⟩
      | succ n => exact .inl rfl
  refine ⟨⟨rfl, fun c => ?_, fun c => ?_, fun c => ?_, fun c hc => ?_⟩, fun c hc => ?_⟩
  all_goals rcases hcs c with e | ⟨e, e'⟩
  · rw [e]
  · rw [e, e']
  · rw [e]
  · rw [e, e']
  · rw [e]
    exact id
  · rw [e, e']
    exact id
  · rwa [isOpen, e] at hc
  · rw [isOpen, e']
  · rwa [isOpen, e]
  · rw [isOpen, e]

section

variable (hvalues : Disciplined (valuesOf all)) (hprompt : ∀ a ∈ all, a.prompt)
include hvalues hprompt

lemma Following.receive {bytes : List UInt8} (hall : all = past ++ (Event.chunk c bytes).answerings s ++ rest)
    (hop : s.isOpen c) (h : Following all past s) :
    Leads all past s ((Event.chunk c bytes).answerings s) ((receive c bytes).run.run s).2 := by
  rw [Event.answerings, hop, Bool.true_and] at hall ⊢
  rw [Tracker.receive, receiveWith, run_connection_bind]
  cases hgr : (s.connection c).greeted with
  | false => exact .nil (h.keeps (keeps_greet _ c bytes))
  | true =>
    have hfd : s.update c (fun x => { x with receiver := x.receiver.feed bytes }) =
        s.hear c _ := update_congr rfl
    have hlt : c < (s.hear c ((s.connection c).receiver.feed bytes)).connections.length :=
      (s.length_update c _).symm ▸ lt_length_of_ne_default fun e => by rw [e] at hgr; cases hgr
    obtain ⟨hhr, hltr⟩ := h.hear c _
    rw [hgr] at hall
    rw [if_pos rfl, if_neg (by simp), run_update_bind, hfd]
    exact (hhr.handleFrames hvalues hprompt _ hall hlt).head hltr

lemma Following.react {event : Event} (hall : all = past ++ event.answerings s ++ rest) (h : Following all past s) :
    Leads all past s (event.answerings s) (s.after event) := by
  cases event with
  | connect host answers =>
    obtain ⟨hcn, hst⟩ := continues_connect s host answers
    refine .nil ⟨⟨h.steady.of_stays hcn hst, fun c j hj => ?_, fun c v hv han => ?_⟩, .of_calls_eq hcn.isOpen rfl⟩
    · exact h.keys c j (hcn.matchKeys c ▸ hj)
    · exact hcn.info c (h.announced c v hv han)
  | chunk c bytes =>
    rw [Server.after, Tracker.react, run_connection_bind]
    split_ifs with hop
    · have hld := h.receive hvalues hprompt hall hop
      rw [orElse, step_tryCatch_run]
      rcases hrun : (Tracker.receive c bytes).run.run s with ⟨r, t⟩
      rw [hrun] at hld
      cases r with
      | ok _ => exact hld
      | error e =>
        dsimp only
        split
        · obtain ⟨hfl, hlt⟩ := hld.following.keeps (keeps_close c)
          exact hld.tail hfl hlt
        · exact hld
    · have hno : (Event.chunk c bytes).answerings s = [] := by
        rw [Event.answerings, isOpen, Bool.eq_false_iff.2 hop]
        rfl
      rw [hno]
      exact .nil ⟨h, .refl s⟩
  | writable c => exact .nil (h.keeps (keeps_writable _ c))
  | hangUp c => exact .nil (h.keeps (keeps_close c))

/-- In the course of events offers are always steady, and from each time to a later one a tracker
goes on as it should. -/
lemma Following.course {events : List Event} (hall : all = past ++ s.answerings events) (h : Following all past s) :
    (∀ u ∈ s.course events, Steady (Bids (valuesOf all)) [] u) ∧ (s :: s.course events).Pairwise Later := by
  induction events generalizing past s with
  | nil => exact ⟨by simp [course], pairwise_singleton ..⟩
  | cons event events ih =>
    rw [Server.answerings, ← append_assoc] at hall
    have hld := h.react hvalues hprompt hall
    obtain ⟨hst, hpr⟩ := ih hall hld.following
    rw [course]
    constructor
    · intro u hu
      rcases mem_append.1 hu with hms | hev
      · obtain ⟨a, ha, rfl⟩ := mem_map.1 hms
        exact hld.steady a ha
      · rcases mem_cons.1 hev with rfl | hlt
        · exact hld.following.steady
        · exact hst u hlt
    · rw [← cons_append, pairwise_append]
      refine ⟨hld.chain, hpr, fun u hu w hw => ?_⟩
      rcases mem_cons.1 hw with rfl | hw
      · exact hld.last u hu
      · exact (hld.last u hu).trans ((pairwise_cons.1 hpr).1 w hw)

end

end Course

/-- A tracker to which no connection has come. -/
def Server.fresh (stopKey : String) : Server := { stopKey }

lemma following_fresh (all : List Answering) (stopKey : String) : Following all [] (fresh stopKey) where
  keys c j hj := by simp [fresh, Server.connection] at hj
  announced c v hv := absurd hv not_mem_nil
  steady :=
    { named := fun p hp => absurd hp not_mem_nil
      key := fun k o ho => absurd ho not_mem_nil
      distinct := fun k => nodup_nil
      apart := fun k o ho => absurd ho not_mem_nil
      bids := fun p hp => absurd hp not_mem_nil
      nodup := fun c => by simp [fresh, Server.connection]
      offers := fun c o ho => by simp [fresh, Server.connection] at ho
      isOpen := fun k o ho => absurd ho not_mem_nil
      awaited := fun c hc j => by simp [fresh, Server.connection, free, pool]
      listed := fun k o ho => absurd ho not_mem_nil
      drained := fun k => rfl }

/-- The offers that are free in any scheduler are those that are free under some key. -/
lemma Steady.exists_pool_iff {bidder : Nat → Prop} {s : Server} (h : Steady bidder [] s) (o : Offer) :
    (∃ p ∈ s.pools, o ∈ p.2.free) ↔ ∃ k, o ∈ s.free k := by
  constructor
  · rintro ⟨p, hp, ho⟩
    obtain ⟨k, -, hpl⟩ := h.named p hp (ne_nil_of_mem ho)
    exact ⟨k, by rw [free, hpl]; exact ho⟩
  · rintro ⟨k, ho⟩
    rcases s.pool_mem_or (.str k) with ⟨p, hp, -, hpl⟩ | hno
    · exact ⟨p, hp, hpl ▸ ho⟩
    · rw [free, hno] at ho
      cases ho

/-- An offer ends with its connection. Whatever connections send, if what is answered keeps the
discipline, then after each message and each event no offer of a closed connection is free in any
scheduler, an open connection awaits exactly the match keys of its offers that are free, and offers
of a connection that is closed are not handed out later. Replies may break their connections at any
time; but what a connection offers in the rest of a chunk after it was closed must not be taken. -/
theorem offers_end_with_connection {stopKey : String} {events : List Event}
    (hvalues : Disciplined (valuesOf ((fresh stopKey).answerings events)))
    (hprompt : ∀ a ∈ (fresh stopKey).answerings events, a.prompt = true) :
    (∀ s ∈ (fresh stopKey).course events, ∀ c,
      (s.isOpen c = false → ∀ p ∈ s.pools, ∀ o ∈ p.2.free, o.owner ≠ c) ∧
      (s.isOpen c = true → ∀ j,
        j ∈ (s.connection c).matchKeys ↔ ∃ p ∈ s.pools, ∃ o ∈ p.2.free, o.owner = c ∧ o.matchKey = j)) ∧
    ((fresh stopKey).course events).Pairwise fun s t => ∀ c, s.isOpen c = false →
      t.isOpen c = false ∧ ∃ calls, t.calls = s.calls ++ calls ∧ ∀ call ∈ calls, call.value.owner ≠ c := by
  obtain ⟨hsteady, hpairs⟩ := (following_fresh _ stopKey).course hvalues hprompt (List.nil_append _).symm
  refine ⟨fun s hs c => ⟨fun hclosed p hp o ho howner => ?_, fun hopen j => ?_⟩, ?_⟩
  · obtain ⟨k, hk⟩ := ((hsteady s hs).exists_pool_iff o).1 ⟨p, hp, ho⟩
    rw [← howner, ((hsteady s hs).mem_matchKeys hk).1] at hclosed
    cases hclosed
  · rw [(hsteady s hs).awaited c hopen]
    constructor
    · rintro ⟨k, o, ho, howner⟩
      obtain ⟨p, hp, hfree⟩ := ((hsteady s hs).exists_pool_iff o).2 ⟨k, ho⟩
      exact ⟨p, hp, o, hfree, howner⟩
    · rintro ⟨p, hp, o, ho, howner⟩
      obtain ⟨k, hk⟩ := ((hsteady s hs).exists_pool_iff o).1 ⟨p, hp, ho⟩
      exact ⟨k, o, hk, howner⟩
  · refine (List.pairwise_cons.1 hpairs).2.imp fun {s t} hlater c hclosed => ⟨?_, ?_⟩
    · refine Bool.eq_false_iff.2 fun hopen => ?_
      rw [hlater.isOpen c hopen] at hclosed
      cases hclosed
    · obtain ⟨calls, hcalls, howners⟩ := hlater.calls
      refine ⟨calls, hcalls, fun call hcall howner => ?_⟩
      rw [← howner, howners call hcall] at hclosed
      cases hclosed

/-! ### Offers that end and offers that stay -/

/-- Whether a connection is open, how many of its offers are free under a key, and how many were
handed out. -/
def Server.fate (c : Nat) (k : String) (s : Server) : Bool × Nat × Nat :=
  (s.isOpen c, (s.free k).countP (·.owner == c), s.calls.countP (·.value.owner == c))

def announcement : Json := .arr [.int 5, .obj [("key", .str "server:k"), ("addr", .arr [.str "h", .int 1])]]

def offer : Json := .arr [.int 3, .str "k", .arr [.int 1, .str "k:0.5"]]

def bid : Json := .arr [.int 4, .str "k", .str "u", .int 1]

/-- Two connections come and are greeted. -/
def twoCome (answers : List SendAnswer) : List Event :=
  [.connect "h" [], .connect "g" answers, .chunk 0 (signedBytes 4 magic), .chunk 1 (signedBytes 4 magic)]

/-- A connection that makes one offer, at the end, keeps the discipline if no other makes any. -/
lemma disciplined_of_offer {answered : List Answering} {between : List Json}
    (hvalues : valuesOf answered 0 = announcement :: between ++ [offer])
    (hbt : ∀ v ∈ between, offeredKey? v = none ∧ isBid v = false)
    (hot : ∀ a ∈ answered, a.connection ≠ 0 → offeredKey? a.value = none) : Disciplined (valuesOf answered) := by
  have hsl : ∀ v ∈ announcement :: between, offeredKey? v = none ∧ isBid v = false :=
    forall_mem_cons.2 ⟨⟨rfl, rfl⟩, hbt⟩
  have hno (c : Nat) (hc : c ≠ 0) : ∀ v ∈ valuesOf answered c, offeredKey? v = none := by
    intro v hv
    obtain ⟨a, ha, rfl⟩ := mem_map.1 hv
    obtain ⟨hmem, hcn⟩ := mem_filter.1 ha
    exact hot a hmem (beq_iff_eq.1 hcn ▸ hc)
  have hon (c : Nat) (v : Json) (hv : v ∈ valuesOf answered c) (hof : (offeredKey? v).isSome) : c = 0 ∧ v = offer := by
    by_cases hc : c = 0
    · subst hc
      rw [hvalues, mem_append, mem_singleton] at hv
      refine ⟨rfl, hv.resolve_left fun hold => ?_⟩
      rw [(hsl v hold).1] at hof
      cases hof
    · rw [hno c hc v hv] at hof
      cases hof
  have hks : (valuesOf answered 0).filterMap offeredKey? = [.str "k:0.5"] := by
    rw [hvalues, filterMap_append, filterMap_eq_nil_iff.2 fun v hv => (hsl v hv).1]
    rfl
  have hnil (c : Nat) (hc : c ≠ 0) : (valuesOf answered c).filterMap offeredKey? = [] :=
    filterMap_eq_nil_iff.2 (hno c hc)
  refine ⟨fun c earlier v later hsp hof => ?_, fun c v hv key port matchKey host hms => ?_, fun c => ?_,
    fun c c' hne => ?_, fun c v hv w hw hof => ?_⟩
  · obtain ⟨rfl, rfl⟩ := hon c v (by rw [hsp]; simp) hof
    rw [hvalues] at hsp
    cases earlier with
    | nil => cases hsp
    | cons first earlier =>
      obtain ⟨rfl, -⟩ := cons.inj hsp
      exact ⟨announcement, mem_cons_self, _, _, _, rfl, rfl, rfl, rfl⟩
  · obtain ⟨-, rfl⟩ := hon c v hv (by rw [offeredKey?, hms]; rfl)
    cases hms
    exact ⟨"k", "0.5", by decide, rfl, rfl⟩
  · by_cases hc : c = 0
    · rw [hc, hks]
      exact nodup_singleton _
    · rw [hnil c hc]
      exact nodup_nil
  · by_cases hc : c = 0
    · rw [hnil c' (hc ▸ hne.symm)]
      exact disjoint_nil_right _
    · rw [hnil c hc]
      exact disjoint_nil_left _
  · obtain ⟨rfl, -⟩ := hon c v hv hof
    rw [hvalues, mem_append, mem_singleton] at hw
    rcases hw with hw | rfl
    · exact (hsl w hw).2
    · rfl

/-- The client breaks when it is told of the offer, which stays free until its server goes. -/
def refusedOffer : List Event :=
  twoCome [.takes 4, .broken] ++ [.chunk 1 (frame bid), .chunk 0 (frame announcement ++ frame offer), .hangUp 0]

theorem refusedOffer_ends :
    ((fresh "stop").course refusedOffer).map (fate 0 "k") =
      [(true, 0, 0), (true, 0, 0), (true, 0, 0), (true, 0, 0), (true, 0, 0), (true, 0, 0), (true, 0, 0), (true, 1, 1),
        (true, 1, 1), (false, 0, 1)] ∧
    (∀ s ∈ (fresh "stop").course refusedOffer, s.isOpen 0 = false → ∀ p ∈ s.pools, ∀ o ∈ p.2.free, o.owner ≠ 0) ∧
    ((fresh "stop").course refusedOffer).Pairwise fun s t => s.isOpen 0 = false →
      t.isOpen 0 = false ∧ ∃ calls, t.calls = s.calls ++ calls ∧ ∀ call ∈ calls, call.value.owner ≠ 0 := by
  have hvalues : valuesOf ((fresh "stop").answerings refusedOffer) 0 = [announcement, offer] := by decide +kernel
  have hothers : ∀ a ∈ (fresh "stop").answerings refusedOffer, a.connection ≠ 0 →
      offeredKey? a.value = none := by
    decide +kernel
  have hprompt : ∀ a ∈ (fresh "stop").answerings refusedOffer, a.prompt = true := by decide +kernel
  obtain ⟨hoffers, hcourse⟩ := offers_end_with_connection
    (disciplined_of_offer hvalues (List.forall_mem_nil _) hothers) hprompt
  refine ⟨?_, fun s hs => (hoffers s hs 0).1, hcourse.imp fun h => h 0⟩
  decide +kernel

/-- A server makes an offer in the same chunk as a message that closes its connection. -/
def lateOffer : List Event :=
  twoCome [] ++ [.chunk 0 (frame announcement), .chunk 0 (frame (.arr [.int 99]) ++ frame offer), .chunk 1 (frame bid)]

/-- A server names its key without an address, which the tracker does not accept, makes an offer and
goes. -/
def unaddressedOffer : List Event :=
  [.connect "h" [], .chunk 0 (signedBytes 4 magic), .chunk 0 (frame (.arr [.int 5, .obj [("key", .str "server:k")]])),
    .chunk 0 (frame offer), .hangUp 0]

/-- An offer that is made late is free although its connection is closed, and is then handed out.
One of a server that has named its key without an address stays free when its connection is
closed. -/
theorem lateOffer_unaddressedOffer_stay :
    (Disciplined (valuesOf ((fresh "stop").answerings lateOffer)) ∧
      ((fresh "stop").course lateOffer).map (fate 0 "k") =
        [(true, 0, 0), (true, 0, 0), (true, 0, 0), (true, 0, 0), (true, 0, 0), (true, 0, 0), (false, 0, 0),
          (false, 1, 0), (false, 1, 0), (false, 0, 1), (false, 0, 1)]) ∧
    valuesOf ((fresh "stop").answerings unaddressedOffer) 0 =
        [.arr [.int 5, .obj [("key", .str "server:k")]], offer] ∧
      ((fresh "stop").course unaddressedOffer).map (fate 0 "k") =
        [(true, 0, 0), (true, 0, 0), (true, 0, 0), (true, 0, 0), (true, 1, 0), (true, 1, 0), (false, 1, 0)] := by
  have hvalues : valuesOf ((fresh "stop").answerings lateOffer) 0 =
      announcement :: [.arr [.int 99]] ++ [offer] := by
    decide +kernel
  have hothers : ∀ a ∈ (fresh "stop").answerings lateOffer, a.connection ≠ 0 → offeredKey? a.value = none := by
    decide +kernel
  refine ⟨⟨disciplined_of_offer hvalues (by decide +kernel) hothers, ?_⟩, ?_, ?_⟩
  · decide +kernel
  · decide +kernel
  · decide +kernel

end TensorToolchain.Tracker
