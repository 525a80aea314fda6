import Mathlib
import TensorToolchain.Tracker.Server

/-!
# Matching values with requests

An exchange brings each value to at most one request that accepts it. Nothing is lost on the way: a
value is free, accepted or removed, and a request waits or was called. The request that is called is
the first among those that wait.
-/

namespace TensorToolchain.Tracker

open List Ranked Tracker.Order Bid Scheduler

variable {π ν ρ κ : Type}
variable {value : ν} {free : List ν} {a b first bid : Bid π ρ} {last : Order π ν ρ}
  {bids others : List (Bid π ρ)} {s : Scheduler π ν ρ} {calls : List (Call π ν ρ)}

/-! ### The first bid -/

section First

variable [Ranked π] {priorities : List π}

/-- Priorities that compare as ranks: no two are above each other, and where one is above another,
each third one is below the former or above the latter. -/
structure RanksAmong (priorities : List π) : Prop where
  asymm : ∀ a ∈ priorities, ∀ b ∈ priorities, above a b = true → above b a = false
  split : ∀ a ∈ priorities, ∀ b ∈ priorities, ∀ c ∈ priorities, above a c = true → above a b = true ∨ above b c = true

lemma ranksAmong_int (priorities : List Int) : RanksAmong priorities where
  asymm a _ b _ h := by
    simp only [above, decide_eq_true_eq, decide_eq_false_iff_not] at h ⊢
    omega
  split a _ b _ c _ h := by
    simp only [above, decide_eq_true_eq] at h ⊢
    omega

lemma RanksAmong.mono {others : List π} (h : RanksAmong priorities)
    (hsub : ∀ a ∈ others, a ∈ priorities) : RanksAmong others where
  asymm a ha b hb := h.asymm a (hsub a ha) b (hsub b hb)
  split a ha b hb c hc := h.split a (hsub a ha) b (hsub b hb) c (hsub c hc)

namespace Bid

lemma precedes_iff : a.precedes b ↔ above a.priority b.priority ∨
      above b.priority a.priority = false ∧ a.arrival < b.arrival := by
  simp [precedes]

lemma not_precedes_iff : a.precedes b = false ↔ above a.priority b.priority = false ∧
      ¬ (above b.priority a.priority = false ∧ a.arrival < b.arrival) := by
  rw [← Bool.not_eq_true, precedes_iff, not_or, Bool.not_eq_true]

variable {c : Bid π ρ} (h : RanksAmong priorities) (ha : a.priority ∈ priorities) (hb : b.priority ∈ priorities)
include h ha hb

lemma not_precedes_of_precedes (hab : a.precedes b) : b.precedes a = false := by
  rw [precedes_iff] at hab
  rw [not_precedes_iff]
  rcases hab with hab | ⟨hba, hlt⟩
  · exact ⟨h.asymm _ ha _ hb hab, fun hba => by simp [hab] at hba⟩
  · exact ⟨hba, fun hab => absurd hlt (by omega)⟩

/-- What goes before another bid leaves no room between them: each third bid comes after the former
or before the latter. -/
lemma precedes_or_precedes (hc : c.priority ∈ priorities) (hac : a.precedes c) : a.precedes b ∨ b.precedes c := by
  have hsp : ∀ x ∈ priorities, ∀ y ∈ priorities, ∀ z ∈ priorities,
      above x y = false → above y z = false → above x z = false := by
    intro x hx y hy z hz hxy hyz
    by_contra hxz
    rcases h.split x hx y hy z hz (by simpa using hxz) with h' | h'
    · simp [h'] at hxy
    · simp [h'] at hyz
  rw [precedes_iff] at hac
  simp only [precedes_iff]
  by_cases hab : above a.priority b.priority
  · exact .inl (.inl hab)
  by_cases hbc : above b.priority c.priority
  · exact .inr (.inl hbc)
  rw [Bool.not_eq_true] at hab hbc
  rcases hac with hac | ⟨hca, hlt⟩
  · simp [hsp _ ha _ hb _ hc hab hbc] at hac
  · -- all three are of one rank, so that the arrivals decide
    have hba := hsp _ hb _ hc _ ha hbc hca
    have hcb := hsp _ hc _ ha _ hb hca hab
    by_cases hlt' : a.arrival < b.arrival
    · exact .inl (.inr ⟨hba, hlt'⟩)
    · exact .inr (.inr ⟨hcb, by omega⟩)

end Bid

lemma takeFirst_eq_none : takeFirst bids = none ↔ bids = [] := by
  cases bids with
  | nil => simp [takeFirst]
  | cons b rest =>
    rw [takeFirst]
    split
    · simp
    · split_ifs <;> simp

lemma perm_of_takeFirst (h : takeFirst bids = some (first, others)) : bids.Perm (first :: others) := by
  induction bids generalizing first others with
  | nil => cases h
  | cons b rest ih =>
    rw [takeFirst] at h
    split at h
    · cases h
      rfl
    · rename_i d left hd
      split_ifs at h with hb
      · cases h
        exact ((ih hd).cons b).trans (.swap first b left)
      · cases h
        rfl

lemma not_precedes_takeFirst (hranks : RanksAmong priorities) (hbd : ∀ b ∈ bids, b.priority ∈ priorities)
    (h : takeFirst bids = some (first, others)) : ∀ b ∈ others, b.precedes first = false := by
  induction bids generalizing first others with
  | nil => cases h
  | cons c rest ih =>
    obtain ⟨hc, hr⟩ := forall_mem_cons.1 hbd
    rw [takeFirst] at h
    split at h
    · rename_i hno
      cases h
      rw [takeFirst_eq_none.1 hno]
      simp
    · rename_i d left htk
      have hpm := perm_of_takeFirst htk
      have hd : d.priority ∈ priorities := hr d (hpm.mem_iff.2 mem_cons_self)
      have hlf := ih hr htk
      split_ifs at h with hdc
      · cases h
        exact forall_mem_cons.2 ⟨not_precedes_of_precedes hranks hd hc hdc, hlf⟩
      · cases h
        intro b hb
        rcases mem_cons.1 (hpm.mem_iff.1 hb) with rfl | hb'
        · simpa using hdc
        · by_contra hbc
          rcases precedes_or_precedes hranks (hr b hb) hd hc (by simpa using hbc) with h' | h'
          · simp [hlf b hb'] at h'
          · exact hdc h'

namespace Scheduler

lemma turn_eq_none : s.turn = none ↔ s.free = [] ∨ s.bids = [] := by
  have hbd : takeFirst s.bids = none ↔ s.bids = [] := takeFirst_eq_none
  rw [← hbd, turn]
  cases s.free <;> cases takeFirst s.bids <;> simp

lemma turn_eq_some {t : Scheduler π ν ρ} : s.turn = some (value, bid, t) ↔
      ∃ free bids, s.free = value :: free ∧ takeFirst s.bids = some (bid, bids) ∧ t = { s with free, bids } := by
  rw [turn]
  rcases s.free with _ | ⟨v, free⟩ <;> rcases takeFirst s.bids with _ | ⟨b, bids⟩ <;> simp [eq_comm, and_assoc]

end Scheduler

end First

/-! ### What was asked for -/

/-- The value that an order puts. -/
def Order.placed? : Order π ν ρ → Option ν
  | .put value => some value
  | _ => none

/-- The priority and the holder of the request that an order makes. -/
def Order.asked? : Order π ν ρ → Option (π × ρ)
  | .request priority holder => some (priority, holder)
  | _ => none

def puts (orders : List (Order π ν ρ)) : List ν := orders.filterMap placed?

/-- All requests as bids, numbered in the order in which they came. -/
def requests (orders : List (Order π ν ρ)) : List (Bid π ρ) :=
  (orders.filterMap asked?).zipIdx.map fun q => ⟨q.1.1, q.2, q.1.2⟩

section

variable (orders : List (Order π ν ρ))

lemma puts_concat (last : Order π ν ρ) : puts (orders ++ [last]) = puts orders ++ last.placed?.toList := by
  rw [puts, filterMap_append]
  cases last <;> rfl

lemma requests_concat (last : Order π ν ρ) : requests (orders ++ [last]) = requests orders ++
      last.asked?.toList.map fun q => ⟨q.1, (requests orders).length, q.2⟩ := by
  rw [requests, filterMap_append, zipIdx_append, requests]
  cases last <;> simp [asked?]

lemma nodup_requests : (requests orders).Nodup := by
  refine Nodup.of_map arrival ?_
  rw [requests, map_map]
  change ((orders.filterMap asked?).zipIdx.map Prod.snd).Nodup
  rw [zipIdx_map_snd]
  exact nodup_range'

end

/-- In calls that were made after earlier ones, each goes to a bid such that no bid that still waits
has a higher priority, or the same one and an earlier arrival. -/
def FairAfter [Ranked π] (bids : List (Bid π ρ)) (earlier calls : List (Call π ν ρ)) : Prop :=
  ∀ made call later, calls = made ++ call :: later → ∀ bid ∈ bids, bid ∉ (earlier ++ made ++ [call]).map Call.bid →
      above bid.priority call.bid.priority = false ∧
        ¬ (above call.bid.priority bid.priority = false ∧ bid.arrival < call.bid.arrival)

/-- A value that was refused is free, unless a later call has brought it to a bid that accepts
it. -/
def RefusedFree (free : List ν) (calls : List (Call π ν ρ)) : Prop :=
  ∀ made call later, calls = made ++ call :: later → call.accepted = false →
    call.value ∈ free ∨ ∃ c ∈ later, c.value = call.value ∧ c.accepted = true

lemma concat_eq_split {α : Type} {l made later : List α} {a b : α} (h : l ++ [a] = made ++ b :: later) :
    later = [] ∧ made = l ∧ b = a ∨ ∃ rest, later = rest ++ [a] ∧ l = made ++ b :: rest := by
  rcases eq_nil_or_concat' later with rfl | ⟨rest, c, rfl⟩
  · obtain ⟨hl, hab⟩ := append_inj' h rfl
    exact .inl ⟨rfl, hl.symm, (singleton_inj.1 hab).symm⟩
  · have h' : l ++ [a] = (made ++ b :: rest) ++ [c] := by simpa using h
    obtain ⟨hl, hac⟩ := append_inj' h' rfl
    exact .inr ⟨rest, by rw [singleton_inj.1 hac], hl⟩

lemma FairAfter.concat [Ranked π] {earlier : List (Call π ν ρ)} {call : Call π ν ρ} (h : FairAfter bids earlier calls)
    (hcl : ∀ bid ∈ bids, bid ∉ (earlier ++ calls ++ [call]).map Call.bid → bid.precedes call.bid = false) :
    FairAfter bids earlier (calls ++ [call]) := by
  intro made c later heq
  rcases concat_eq_split heq with ⟨-, rfl, rfl⟩ | ⟨rest, -, hr⟩
  · exact fun bid hbid hnot => not_precedes_iff.1 (hcl bid hbid hnot)
  · exact h made c rest hr

lemma RefusedFree.concat_accepted (h : RefusedFree (value :: free) calls) :
    RefusedFree free (calls ++ [⟨value, bid, true⟩]) := by
  intro made c later heq hc
  rcases concat_eq_split heq with ⟨-, -, rfl⟩ | ⟨rest, rfl, hr⟩
  · cases hc
  · rcases h made c rest hr hc with hfr | ⟨d, hd, hvl⟩
    · rcases mem_cons.1 hfr with hv | hfr
      · exact .inr ⟨⟨value, bid, true⟩, by simp, hv.symm, rfl⟩
      · exact .inl hfr
    · exact .inr ⟨d, by simp [hd], hvl⟩

lemma RefusedFree.concat_refused (h : RefusedFree (value :: free) calls) :
    RefusedFree (free ++ [value]) (calls ++ [⟨value, bid, false⟩]) := by
  intro made c later heq hc
  rcases concat_eq_split heq with ⟨-, -, rfl⟩ | ⟨rest, rfl, hr⟩
  · exact .inl (by simp)
  · rcases h made c rest hr hc with hfr | ⟨d, hd, hv⟩
    · exact .inl (by simpa [or_comm] using hfr)
    · exact .inr ⟨d, by simp [hd], hv⟩

namespace Exchange

variable [Ranked π]

def taken (x : Exchange π ν ρ κ) : List ν := (x.calls.filter Call.accepted).map Call.value

/-! ### One hand-out and a whole round of them -/

/-- What holds while values are handed out, `earlier` being the calls before: everything is
accounted for, the keys of free values are awaited, and the new calls are fair. -/
structure Settling (terms : Terms π ν ρ κ) (orders : List (Order π ν ρ)) (gone : List ν)
    (earlier : List (Call π ν ρ)) (x : Exchange π ν ρ κ) : Prop where
  values : (puts orders).Perm (x.pool.free ++ x.taken ++ gone)
  bids : (requests orders).Perm (x.calls.map Call.bid ++ x.pool.bids)
  awaited : ∀ v ∈ x.pool.free, terms.key v ∈ x.awaited
  arrivals : x.pool.arrivals = (requests orders).length
  calls : ∃ new, x.calls = earlier ++ new ∧ FairAfter (requests orders) earlier new ∧ RefusedFree x.pool.free new

variable {terms : Terms π ν ρ κ} {orders : List (Order π ν ρ)} {gone : List ν}
  {earlier : List (Call π ν ρ)} {x : Exchange π ν ρ κ} {value : ν} {bid : Bid π ρ}
  {pool : Scheduler π ν ρ}

section Round

variable (h : Settling terms orders gone earlier x) (hranks : RanksAmong ((requests orders).map priority))
  (hturn : x.pool.turn = some (value, bid, pool))
include h hranks hturn

lemma Settling.not_precedes : ∀ b ∈ requests orders, b ∉ x.calls.map Call.bid ++ [bid] → b.precedes bid = false := by
  obtain ⟨free, bids, -, hfst, -⟩ := turn_eq_some.1 hturn
  intro b hb hnot
  rw [mem_append, not_or, mem_singleton] at hnot
  rcases mem_append.1 (h.bids.mem_iff.1 hb) with hcl | hwt
  · exact absurd hcl hnot.1
  · refine not_precedes_takeFirst hranks (fun c hc => ?_) hfst b ?_
    · exact mem_map_of_mem (h.bids.mem_iff.2 (mem_append_right _ hc))
    · exact (mem_cons.1 ((perm_of_takeFirst hfst).mem_iff.1 hwt)).resolve_left hnot.2

/-- A call moves its bid from those that wait to those that were called, and it is fair. -/
lemma Settling.call {accepted : Bool}
    (hrf : ∀ {new}, RefusedFree x.pool.free new → RefusedFree free (new ++ [⟨value, bid, accepted⟩])) :
    (requests orders).Perm ((x.calls ++ [(⟨value, bid, accepted⟩ : Call π ν ρ)]).map Call.bid ++ pool.bids) ∧
      ∃ new, x.calls ++ [⟨value, bid, accepted⟩] = earlier ++ new ∧
        FairAfter (requests orders) earlier new ∧ RefusedFree free new := by
  have hfr := h.not_precedes hranks hturn
  obtain ⟨_, bids, -, hfst, rfl⟩ := turn_eq_some.1 hturn
  obtain ⟨new, hcl, hnew, hfre⟩ := h.calls
  refine ⟨h.bids.trans ?_, new ++ [⟨value, bid, accepted⟩], by rw [hcl, append_assoc], ?_, hrf hfre⟩
  · rw [map_append, append_assoc]
    exact (perm_of_takeFirst hfst).append_left _
  · refine hnew.concat fun b hb hnot => hfr b hb ?_
    simpa [hcl] using hnot

variable [DecidableEq ν]

lemma Settling.refuse : Settling terms orders gone earlier
    { pool := pool.put value, calls := x.calls ++ [⟨value, bid, false⟩], awaited := x.awaited } := by
  obtain ⟨free, bids, hfr, -, rfl⟩ := Scheduler.turn_eq_some.1 hturn
  obtain ⟨hbd, hcl⟩ := h.call hranks hturn fun hnew => .concat_refused (hfr ▸ hnew)
  have hvs := h.values
  rw [hfr] at hvs
  refine ⟨?_, hbd, ?_, h.arrivals, hcl⟩
  · rw [perm_iff_count] at hvs ⊢
    intro v
    have hv := hvs v
    simp only [taken, Scheduler.put, filter_append, map_append, count_append,
      count_cons, cons_append, filter_cons, filter_nil, map_nil, count_nil, Bool.false_eq_true, if_false] at hv ⊢
    omega
  · intro v hv
    refine h.awaited v (hfr ▸ ?_)
    simpa [Scheduler.put, or_comm] using hv

variable [DecidableEq κ]

lemma Settling.accept (hks : ((puts orders).map terms.key).Nodup) : Settling terms orders gone earlier
    { pool, calls := x.calls ++ [⟨value, bid, true⟩], awaited := x.awaited.erase (terms.key value) } := by
  obtain ⟨free, bids, hfr, -, rfl⟩ := turn_eq_some.1 hturn
  obtain ⟨hbd, hcl⟩ := h.call hranks hturn fun hnew => .concat_accepted (hfr ▸ hnew)
  have hvs := h.values
  rw [hfr] at hvs
  refine ⟨?_, hbd, ?_, h.arrivals, hcl⟩
  · rw [perm_iff_count] at hvs ⊢
    intro v
    have hv := hvs v
    simp only [taken, filter_append, map_append, count_append, count_cons,
      cons_append, filter_cons_of_pos, filter_nil, map_cons, map_nil, count_nil] at hv ⊢
    omega
  · -- the keys of other values differ from the one that is struck off
    intro v hv
    have hnd : ((value :: free).map terms.key).Nodup := by
      refine ((hvs.map terms.key).nodup_iff.1 hks).sublist ?_
      rw [append_assoc, map_append]
      exact sublist_append_left _ _
    rw [map_cons, nodup_cons] at hnd
    have hne : terms.key v ≠ terms.key value := fun e => hnd.1 (e ▸ mem_map_of_mem hv)
    exact (mem_erase_of_ne hne).2 (h.awaited v (hfr ▸ mem_cons_of_mem _ hv))

end Round

/-! ### One order and all orders -/

lemma no_calls (bids : List (Bid π ρ)) (earlier : List (Call π ν ρ)) (free : List ν) :
    ∃ new, earlier = earlier ++ new ∧ FairAfter bids earlier new ∧ RefusedFree free new :=
  ⟨[], by simp, fun _ _ _ h => by simp at h, fun _ _ _ h => by simp at h⟩

section Orders

variable (h : Settling terms orders gone earlier x)
include h

lemma Settling.request (priority : π) (holder : ρ) : Settling terms (orders ++ [.request priority holder]) gone x.calls
      { x with pool := x.pool.bid priority holder } := by
  refine ⟨?_, ?_, h.awaited, ?_, no_calls _ _ _⟩
  · rw [puts_concat]
    simpa [placed?, taken, bid] using h.values
  · rw [requests_concat]
    simp only [asked?, Option.toList_some, map_cons, map_nil, bid, h.arrivals]
    rw [← append_assoc]
    exact h.bids.append_right _
  · rw [requests_concat]
    simp [asked?, bid, h.arrivals]

/-- Without a request the bids stay as they were. -/
lemma Settling.unasked (last : Order π ν ρ) (hlst : last.asked? = none) :
    (requests (orders ++ [last])).Perm (x.calls.map Call.bid ++ x.pool.bids) ∧
      x.pool.arrivals = (requests (orders ++ [last])).length := by
  rw [requests_concat, hlst, Option.toList_none, map_nil, append_nil]
  exact ⟨h.bids, h.arrivals⟩

variable [DecidableEq ν]

lemma Settling.remove (hvl : value ∈ x.pool.free) :
    Settling terms (orders ++ [.remove value]) (gone ++ [value]) x.calls { x with pool := x.pool.remove value } := by
  obtain ⟨hbd, har⟩ := h.unasked (.remove value) rfl
  refine ⟨?_, hbd, fun v hv => h.awaited v (mem_of_mem_erase hv), har, no_calls _ _ _⟩
  rw [puts_concat]
  simp only [placed?, Option.toList_none, append_nil, Scheduler.remove]
  refine h.values.trans ?_
  have her := (perm_cons_erase hvl).append_right (x.taken ++ gone)
  rw [perm_iff_count] at her ⊢
  intro v
  have hv := her v
  simp only [taken, count_append, count_cons, count_nil, cons_append] at hv ⊢
  omega

variable [DecidableEq κ]

omit [Ranked π] [DecidableEq ν] h in
lemma mem_awaited_await {key k : κ} : k ∈ (x.await key).awaited ↔ k = key ∨ k ∈ x.awaited := by
  rw [await]
  split_ifs with hmem
  · have hkey : key ∈ x.awaited := by simpa using hmem
    exact ⟨.inr, fun hk => hk.elim (fun e => e ▸ hkey) id⟩
  · simp [or_comm]

omit [Ranked π] [DecidableEq ν] h in
lemma calls_await (key : κ) : (x.await key).calls = x.calls := by
  rw [await]
  split_ifs <;> rfl

lemma Settling.put (value : ν) : Settling terms (orders ++ [.put value]) gone x.calls
      { x.await (terms.key value) with pool := x.pool.put value } := by
  obtain ⟨hbd, har⟩ := h.unasked (.put value) rfl
  refine ⟨?_, ?_, ?_, har, ?_⟩
  · have hvs := h.values
    rw [puts_concat]
    rw [perm_iff_count] at hvs ⊢
    intro v
    have hv := hvs v
    simp only [taken, calls_await, Scheduler.put, placed?, Option.toList_some, count_append] at hv ⊢
    omega
  · rwa [calls_await]
  · intro v hv
    rw [mem_awaited_await]
    rcases mem_append.1 hv with hv | hv
    · exact .inr (h.awaited v hv)
    · exact .inl (by rw [mem_singleton.1 hv])
  · rw [calls_await]
    exact no_calls _ _ _

/-- Handing out ends without a fault, and then nothing is left to hand out. -/
lemma Settling.settleFor (hks : ((puts orders).map terms.key).Nodup)
    (hranks : RanksAmong ((requests orders).map priority)) {fuel : Nat}
    (hfl : x.pool.bids.length ≤ fuel) : ∃ y, x.settleFor terms fuel = (y, none) ∧ Settling terms orders gone earlier y ∧
      y.pool.turn = none := by
  induction fuel generalizing x with
  | zero =>
    refine ⟨x, rfl, h, turn_eq_none.2 (.inr ?_)⟩
    exact length_eq_zero_iff.1 (Nat.le_zero.1 hfl)
  | succ fuel ih =>
    rw [settleFor]
    split
    · rename_i hturn
      exact ⟨x, rfl, h, hturn⟩
    · rename_i value bid pool hturn
      have hacp := h.accept hranks hturn hks
      have hrf := h.refuse hranks hturn
      obtain ⟨free, bids, hfr, hfst, rfl⟩ := turn_eq_some.1 hturn
      have hlen := (perm_of_takeFirst hfst).length_eq
      rw [length_cons] at hlen
      have hbd : bids.length ≤ fuel := by omega
      have hkey : terms.key value ∈ x.awaited := h.awaited value (by simp [hfr])
      cases hac : terms.accepts x.calls value bid with
      | false => simpa [hac] using ih hrf hbd
      | true => simpa [hac, hkey] using ih hacp hbd

end Orders

variable [DecidableEq ν] [DecidableEq κ]

def after (terms : Terms π ν ρ κ) (x : Exchange π ν ρ κ) (orders : List (Order π ν ρ)) : Exchange π ν ρ κ :=
  orders.foldl (fun x order => (x.perform terms order).1) x

/-- The value that an order takes out of an exchange where it is free. -/
def removal (x : Exchange π ν ρ κ) : Order π ν ρ → List ν
  | .remove value => if value ∈ x.pool.free then [value] else []
  | _ => []

/-- The values that orders take out of an exchange. -/
def removals (terms : Terms π ν ρ κ) (x : Exchange π ν ρ κ) : List (Order π ν ρ) → List ν
  | [] => []
  | order :: rest => x.removal order ++ removals terms (x.perform terms order).1 rest

lemma after_concat : x.after terms (orders ++ [last]) = ((x.after terms orders).perform terms last).1 := by
  rw [after, foldl_append]
  rfl

lemma removals_concat : x.removals terms (orders ++ [last]) =
    x.removals terms orders ++ (x.after terms orders).removal last := by
  induction orders generalizing x with
  | nil => simp [removals, after]
  | cons order rest ih =>
    rw [cons_append, removals, ih, removals, append_assoc]
    rfl

/-- An order is done without a fault, and leaves nothing to hand out. -/
lemma Settling.perform (h : Settling terms orders gone earlier x) (hid : x.pool.turn = none)
    (last : Order π ν ρ) (hks : ((puts (orders ++ [last])).map terms.key).Nodup)
    (hranks : RanksAmong ((requests (orders ++ [last])).map priority)) : ∃ y, x.perform terms last = (y, none) ∧
      Settling terms (orders ++ [last]) (gone ++ x.removal last) x.calls y ∧ y.pool.turn = none := by
  cases last with
  | put value =>
    simp only [removal, append_nil]
    exact (h.put value).settleFor hks hranks (le_refl _)
  | request priority holder =>
    simp only [removal, append_nil]
    exact (h.request priority holder).settleFor hks hranks (le_refl _)
  | remove value =>
    by_cases hv : value ∈ x.pool.free
    · simp only [Exchange.perform, removal, contains_iff_mem, hv, if_true]
      exact (h.remove hv).settleFor hks hranks (le_refl _)
    · simp only [Exchange.perform, removal, contains_iff_mem, hv, if_false, append_nil]
      obtain ⟨hbd, har⟩ := h.unasked (.remove value) rfl
      refine ⟨x, rfl, ⟨?_, hbd, h.awaited, har, no_calls _ _ _⟩, hid⟩
      rw [puts_concat]
      simpa [placed?] using h.values

omit [Ranked π] [DecidableEq ν] [DecidableEq κ] in
lemma nodup_keys_of_concat (hks : ((puts (orders ++ [last])).map terms.key).Nodup) :
    ((puts orders).map terms.key).Nodup := by
  rw [puts_concat, map_append] at hks
  exact hks.sublist (sublist_append_left _ _)

omit [DecidableEq ν] in
lemma ranksAmong_of_concat (hranks : RanksAmong ((requests (orders ++ [last])).map priority)) :
    RanksAmong ((requests orders).map priority) := by
  refine hranks.mono fun a ha => ?_
  rw [requests_concat, map_append]
  exact mem_append_left _ ha

/-- After any orders, everything is accounted for and nothing is left to hand out. -/
lemma exists_settling (terms : Terms π ν ρ κ) (orders : List (Order π ν ρ)) (hks : ((puts orders).map terms.key).Nodup)
    (hranks : RanksAmong ((requests orders).map priority)) :
    ∃ earlier, Settling terms orders (removals terms {} orders) earlier (after terms ({} : Exchange π ν ρ κ) orders) ∧
      (after terms ({} : Exchange π ν ρ κ) orders).pool.turn = none := by
  induction orders using reverseRecOn with
  | nil => exact ⟨[], ⟨.refl _, .refl _, by simp [after], rfl, no_calls _ [] []⟩, rfl⟩
  | append_singleton orders last ih =>
    obtain ⟨earlier, hbef, hid⟩ := ih (nodup_keys_of_concat hks) (ranksAmong_of_concat hranks)
    obtain ⟨y, hpr, hy, hturn⟩ := hbef.perform hid last hks hranks
    rw [after_concat, removals_concat, hpr]
    exact ⟨_, hy, hturn⟩

/-- After each of any orders, whatever the requests answer, no fault arises and either no value is
free or no request waits. Each value that was put is free, or was accepted by one request, or was
removed. Each request waits or was called once. In each call of the last order, no request that
waits has a higher priority than the one called, or the same one and an earlier arrival; a request
that refuses is dropped, and the value stays free until a later call brings it to a request that
accepts it. -/
theorem fair_after_orders (terms : Terms π ν ρ κ) (orders : List (Order π ν ρ))
    (last : Order π ν ρ) (hkeys : ((puts (orders ++ [last])).map terms.key).Nodup)
    (hranks : RanksAmong ((requests (orders ++ [last])).map Bid.priority)) :
    let before := after terms ({} : Exchange π ν ρ κ) orders
    let now := after terms ({} : Exchange π ν ρ κ) (orders ++ [last])
    let gone := removals terms ({} : Exchange π ν ρ κ) (orders ++ [last])
    (before.perform terms last).2 = none ∧
    (now.pool.free = [] ∨ now.pool.bids = []) ∧
    (puts (orders ++ [last])).Perm (now.pool.free ++ now.taken ++ gone) ∧
    (now.pool.free ++ now.taken ++ gone).Nodup ∧
    (requests (orders ++ [last])).Perm (now.calls.map Call.bid ++ now.pool.bids) ∧
    (now.calls.map Call.bid ++ now.pool.bids).Nodup ∧
    ∃ new, now.calls = before.calls ++ new ∧
      FairAfter (requests (orders ++ [last])) before.calls new ∧
      RefusedFree now.pool.free new ∧ ∀ call ∈ new, call.bid ∉ now.pool.bids := by
  intro before now gone
  obtain ⟨earlier, hbefore, hidle⟩ :=
    exists_settling terms orders (nodup_keys_of_concat hkeys) (ranksAmong_of_concat hranks)
  obtain ⟨y, hperform, hy, hturn⟩ := hbefore.perform hidle last hkeys hranks
  obtain rfl : now = y := after_concat.trans (congrArg Prod.fst hperform)
  rw [← removals_concat] at hy
  have hbids : (now.calls.map Call.bid ++ now.pool.bids).Nodup := hy.bids.nodup_iff.1 (nodup_requests _)
  obtain ⟨new, hcalls, hfair, hrefused⟩ := hy.calls
  refine ⟨congrArg Prod.snd hperform, Scheduler.turn_eq_none.1 hturn, hy.values,
    hy.values.nodup_iff.1 (.of_map _ hkeys), hy.bids, hbids, new, hcalls, hfair, hrefused, ?_⟩
  intro call hcall hwaits
  refine (List.nodup_append.1 hbids).2.2 _ (List.mem_map_of_mem ?_) _ hwaits rfl
  rw [hcalls]
  exact List.mem_append_right _ hcall

/-- Of two requests of one priority the first refuses and the second accepts, while a lower one
waits. -/
theorem fair_after_refusal :
    let terms : Terms Int Nat Bool Nat := ⟨id, fun _ _ bid => bid.holder⟩
    let orders : List (Order Int Nat Bool) := [.request 1 true, .request 3 false, .request 3 true]
    let now := after terms ({} : Exchange Int Nat Bool Nat) (orders ++ [.put 7])
    ((puts (orders ++ [.put 7])).map terms.key).Nodup ∧
      RanksAmong ((requests (orders ++ [.put 7])).map Bid.priority) ∧
      now.calls = [⟨7, ⟨3, 1, false⟩, false⟩, ⟨7, ⟨3, 2, true⟩, true⟩] ∧
      now.pool.bids = [⟨1, 0, true⟩] ∧ FairAfter (requests (orders ++ [.put 7])) [] now.calls := by
  intro terms orders now
  have hkeys : ((puts (orders ++ [.put 7])).map terms.key).Nodup := by decide
  obtain ⟨-, -, -, -, -, -, new, hnew, hfair, -⟩ := fair_after_orders terms orders (.put 7) hkeys (ranksAmong_int _)
  exact ⟨hkeys, ranksAmong_int _, by decide, by decide, (show now.calls = new from hnew) ▸ hfair⟩

end Exchange

end TensorToolchain.Tracker
