import Mathlib
import TensorToolchain.Tracker.Server

/-!
# Bytes written to a connection

Whatever is written to a connection, and whatever it answers, the bytes that it takes are those that
were written, in order, and the rest of them is pending while it is open. Once it is to be closed,
it is closed when nothing is pending.
-/

namespace TensorToolchain.Tracker.Outbox

open List

lemma write_eq (o : Outbox) (message : List UInt8) : o.write message =
    if o.isOpen then .ok (flush { o with pending := o.pending ++ [message] })
    else refuse .system "socket is already closed" := by
  rw [write]
  cases o.isOpen <;> rfl

/-- What happens to a connection: a message is written, it can take bytes again, or it is to be
closed. -/
inductive Act where
  | write (message : List UInt8)
  | writable
  | signalClose

def Act.bytes : Act → List UInt8
  | .write message => message
  | _ => []

/-- A connection after something has happened; what is written to a closed one is refused. -/
def act (o : Outbox) : Act → Outbox
  | .write message => (o.write message).toOption.getD o
  | .writable => if o.isOpen then o.flush else o
  | .signalClose => o.signalClose

variable {o o' : Outbox} {message : List UInt8} {rest : List (List UInt8)}

/-! ### Sending -/

/-- The number of messages and bytes that are pending, which bounds the number of offers. -/
def load (pending : List (List UInt8)) : Nat := (pending.map (·.length + 1)).foldl (· + ·) 0

lemma load_cons : load (message :: rest) = message.length + 1 + load rest := by
  rw [load, load, ← sum_eq_foldl, ← sum_eq_foldl, map_cons, sum_cons]

/-- A part of a message that is taken has a byte at least, if the message has. -/
lemma takenCount_spec (message : List UInt8) (count : Nat) :
    takenCount message count ≤ message.length ∧ (takenCount message count = 0 → message.length = 0) := by
  rw [takenCount]
  split_ifs with h
  · simp [isEmpty_iff.1 h]
  · omega

/-- What sending leaves as it is: all bytes that were taken or are pending, and whether the
connection is to be closed. Nothing becomes of a message without bytes, and no error comes from
nowhere. -/
structure Sends (o o' : Outbox) : Prop where
  bytes : o'.taken ++ o'.pending.flatten = o.taken ++ o.pending.flatten
  closing : o'.closing = o.closing
  answers : o'.answers <:+ o.answers
  filled : [] ∉ o.pending → [] ∉ o'.pending

lemma Sends.trans {o'' : Outbox} (h : Sends o o') (h' : Sends o' o'') : Sends o o'' where
  bytes := h'.bytes.trans h.bytes
  closing := h'.closing.trans h.closing
  answers := h'.answers.trans h.answers
  filled := h'.filled ∘ h.filled

lemma sends_offer {more : Bool} (h : o.pending = message :: rest) (hof : o.offer message rest = (o', more)) :
    Sends o o' ∧ (more → o'.isOpen = o.isOpen ∧ load o'.pending < load o.pending) ∧
      (more = false → o'.pending ≠ [] ∧ (.broken ∉ o.answers → o'.isOpen = o.isOpen)) := by
  obtain ⟨pending, taken, isOpen, closing, answers⟩ := o
  obtain rfl : pending = message :: rest := h
  have hr : [] ∉ message :: rest → [] ∉ rest := fun h hr => h (mem_cons_of_mem message hr)
  rw [load_cons]
  rcases answers with _ | ⟨count | _ | _, answers⟩
  · cases hof
    refine ⟨⟨by simp, rfl, suffix_rfl, hr⟩, fun _ => ⟨rfl, by dsimp only; omega⟩, by simp⟩
  · obtain ⟨hle, hpos⟩ := takenCount_spec message count
    cases hof
    refine ⟨⟨?_, rfl, suffix_cons .., ?_⟩, fun _ => ⟨rfl, ?_⟩, by simp⟩
    all_goals dsimp only; split <;> rename_i hn
    · rw [beq_iff_eq.1 hn]
      simp
    · rw [flatten_cons, append_assoc, ← append_assoc (take _ _), take_append_drop, flatten_cons]
    · exact hr
    · have hdr : [] ≠ message.drop (takenCount message count) := fun e => hn (by
        rw [beq_iff_eq]
        exact le_antisymm hle (drop_eq_nil_iff.1 e.symm))
      exact fun h hin => (mem_cons.1 hin).elim hdr (hr h)
    · omega
    · have hne : takenCount message count ≠ message.length := fun e => hn (beq_iff_eq.2 e)
      rw [load_cons, length_drop]
      omega
  · cases hof
    exact ⟨⟨rfl, rfl, suffix_cons .., id⟩, by simp, fun _ => ⟨cons_ne_nil _ _, fun _ => rfl⟩⟩
  · cases hof
    exact ⟨⟨rfl, rfl, suffix_cons .., id⟩, by simp, fun _ => ⟨cons_ne_nil _ _, absurd mem_cons_self⟩⟩

lemma sends_flushFor {fuel : Nat} (hfl : load o.pending < fuel) (hop : o.isOpen) :
    Sends o (o.flushFor fuel) ∧ (.broken ∉ o.answers →
      ((o.flushFor fuel).isOpen = false ↔ o.closing ∧ (o.flushFor fuel).pending = [])) := by
  induction fuel generalizing o with
  | zero => omega
  | succ fuel ih =>
    rw [flushFor]
    split
    · rename_i hpn
      split_ifs with hcl
      · exact ⟨⟨rfl, rfl, suffix_rfl, id⟩, fun _ => by simp [hcl, hpn]⟩
      · exact ⟨⟨rfl, rfl, suffix_rfl, id⟩, fun _ => by simp [hcl, hop]⟩
    · rename_i message rest hpn
      split
      · rename_i next hnx
        obtain ⟨hsn, htk, -⟩ := sends_offer hpn hnx
        obtain ⟨hsm, hls⟩ := htk rfl
        obtain ⟨hr, hcls⟩ := ih (by omega) (hsm.trans hop)
        exact ⟨hsn.trans hr, fun hb => hsn.closing ▸ hcls fun hin => hb (hsn.answers.subset hin)⟩
      · rename_i next hnx
        obtain ⟨hsn, -, hst⟩ := sends_offer hpn hnx
        obtain ⟨hpn, hsm⟩ := hst rfl
        exact ⟨hsn, fun hb => by simp [hsm hb, hop, hpn]⟩

/-! ### Whole runs -/

/-- What holds after acts, by which some bytes were written. -/
structure Kept (given : List SendAnswer) (acts : List Act) (o : Outbox) : Prop where
  bytes : o.taken ++ o.pending.flatten <+: acts.flatMap Act.bytes
  isOpen : o.isOpen = true → o.taken ++ o.pending.flatten = acts.flatMap Act.bytes
  answers : o.answers <:+ given
  closed : .broken ∉ given → ((o.isOpen = false ↔ .signalClose ∈ acts ∧ o.pending = []) ∧
    (o.isOpen = true → (o.closing = true ↔ .signalClose ∈ acts)))
  filled : .write [] ∉ acts → [] ∉ o.pending

variable {given : List SendAnswer} {acts : List Act}

lemma Kept.send {a : Act} (added : List (List UInt8)) (h : Kept given acts o) (ha : .signalClose ≠ a)
    (hby : added.flatten = a.bytes) (hfl : [] ∈ added → a = .write []) :
    Kept given (acts ++ [a]) (if o.isOpen then flush { o with pending := o.pending ++ added } else o) := by
  have hsg : .signalClose ∈ acts ++ [a] ↔ .signalClose ∈ acts := by simp [ha]
  have hwr : (acts ++ [a]).flatMap Act.bytes = acts.flatMap Act.bytes ++ a.bytes := by simp
  split_ifs with hop
  · obtain ⟨hsn, hcl⟩ := sends_flushFor (o := { o with pending := o.pending ++ added }) (Nat.lt_succ_self _) hop
    have hall := hsn.bytes
    rw [flatten_append, ← append_assoc, h.isOpen hop, hby, ← hwr] at hall
    refine ⟨hall ▸ prefix_rfl, fun _ => hall, hsn.answers.trans h.answers, fun hb => ?_, fun hm => ?_⟩
    · rw [hsg, ← (h.closed hb).2 hop]
      exact ⟨hcl fun hin => hb (h.answers.subset hin), fun _ => iff_of_eq (congrArg (· = true) hsn.closing)⟩
    · refine hsn.filled fun hin => ?_
      rcases mem_append.1 hin with hold | hnew
      · exact h.filled (fun e => hm (mem_append_left _ e)) hold
      · exact hm (hfl hnew ▸ mem_append_right _ mem_cons_self)
  · refine ⟨h.bytes.trans (hwr ▸ prefix_append ..), (absurd · hop), h.answers, fun hb => ?_, fun hm => ?_⟩
    · rw [hsg]
      exact ⟨(h.closed hb).1, (absurd · hop)⟩
    · exact h.filled fun e => hm (mem_append_left _ e)

lemma Kept.act (h : Kept given acts o) (a : Act) : Kept given (acts ++ [a]) (o.act a) := by
  cases a with
  | write message =>
    have hsn := h.send (a := .write message) [message] (by simp) (by simp [Act.bytes]) (by simp [eq_comm])
    rw [Outbox.act, write_eq]
    split_ifs at hsn ⊢ <;> exact hsn
  | writable =>
    have hsn := h.send (a := .writable) [] (by simp) rfl (by simp)
    rwa [append_nil] at hsn
  | signalClose =>
    have hwr : (acts ++ [Act.signalClose]).flatMap Act.bytes = acts.flatMap Act.bytes := by simp [Act.bytes]
    have hfl (hm : .write [] ∉ acts ++ [.signalClose]) : [] ∉ o.pending := h.filled fun e => hm (mem_append_left _ e)
    rw [Outbox.act, signalClose]
    split_ifs with hno
    · refine ⟨hwr ▸ h.bytes, by simp, h.answers, fun _ => ?_, hfl⟩
      simp [isEmpty_iff.1 hno]
    · refine ⟨hwr ▸ h.bytes, hwr ▸ h.isOpen, h.answers, fun hb => ⟨?_, by simp⟩, hfl⟩
      have hcl := (h.closed hb).1
      rw [List.isEmpty_iff] at hno
      simpa [hno] using hcl

lemma kept_after (given : List SendAnswer) (acts : List Act) : Kept given acts (acts.foldl act { answers := given }) := by
  induction acts using reverseRecOn with
  | nil => exact ⟨prefix_rfl, fun _ => rfl, suffix_rfl, by simp, by simp⟩
  | append_singleton acts a ih =>
    rw [foldl_append]
    exact ih.act a

/-- Whatever happens to a connection and whatever it answers, the bytes that it takes are the first
ones that were written, and while it is open the others are pending. Without an error it is closed
exactly if it is to be closed and no message is pending; and no message that is pending is without
bytes, if none was written. -/
theorem bytes_taken_in_order (given : List SendAnswer) (acts : List Act) :
    let o := acts.foldl act { answers := given }
    o.taken <+: acts.flatMap Act.bytes ∧
      (o.isOpen = true → o.taken ++ o.pending.flatten = acts.flatMap Act.bytes) ∧
      (.broken ∉ given → (o.isOpen = false ↔ .signalClose ∈ acts ∧ o.pending = [])) ∧
      (.write [] ∉ acts → (o.pending = [] ↔ o.pending.flatten = [])) := by
  intro o
  have h : Kept given acts o := kept_after given acts
  refine ⟨(prefix_append ..).trans h.bytes, h.isOpen, fun hb => (h.closed hb).1, fun hm => ?_⟩
  rw [flatten_eq_nil_iff]
  exact ⟨fun e => by simp [e], fun e => eq_nil_iff_forall_not_mem.2 fun m hin => h.filled hm (e m hin ▸ hin)⟩

end TensorToolchain.Tracker.Outbox
