import TensorToolchain.Proofs.Json.RoundTrip
import TensorToolchain.Proofs.Tracker.Receivers

/-!
# Frames and streams
-/

namespace TensorToolchain

/-! ### Frames in a stream

The receiver of a stream is described by the bytes that it holds: which frame it takes out next, and
what it holds then, does not depend on how those bytes were cut into chunks.
-/

open List

variable {v : Json} {bytes : List UInt8}

/-! ### Bytes of a length -/

lemma length_littleEndian (width n : Nat) : (littleEndian width n).length = width := by
  induction width generalizing n with
  | zero => rfl
  | succ width ih => rw [littleEndian, length_cons, ih]

lemma ofLittleEndian_littleEndian (width n : Nat) : ofLittleEndian (littleEndian width n) = n % 256 ^ width := by
  induction width generalizing n with
  | zero => rw [littleEndian, ofLittleEndian, pow_zero, Nat.mod_one]
  | succ width ih =>
    have hlow : (UInt8.ofNat n).toNat = n % 256 := UInt8.toNat_ofNat'
    rw [littleEndian, ofLittleEndian, ih, hlow, pow_succ', Nat.mod_mul]

/-- A natural number that leaves the sign free is read back from its bytes. -/
lemma ofSignedBytes_signedBytes {width n : Nat} (h : 2 * n < 256 ^ width) :
    ofSignedBytes (signedBytes width n) = n := by
  have hlt : n < 256 ^ width := by omega
  have hby : ((n : Int) % (.pow 256 width : Nat)).toNat = n := by
    rw [Nat.pow_eq, ← Int.natCast_mod, Int.toNat_natCast, Nat.mod_eq_of_lt hlt]
  rw [ofSignedBytes, signedBytes, hby, ofLittleEndian_littleEndian, length_littleEndian, Nat.pow_eq,
    Nat.mod_eq_of_lt hlt, if_pos h]

lemma byteArray_toList_loop (bs : ByteArray) (i : Nat) (acc : List UInt8) :
    ByteArray.toList.loop bs i acc = acc.reverse ++ bs.data.toList.drop i := by
  fun_induction ByteArray.toList.loop bs i acc with
  | case1 i acc hlt ih =>
    have hget : bs.get! i = bs.data.toList[i] := by simp [ByteArray.get!, getElem!_pos bs.data i hlt]
    rw [ih, reverse_cons, append_assoc, singleton_append, hget, getElem_cons_drop]
  | case2 i acc hge => rw [drop_eq_nil_of_le (by simpa using hge), append_nil]

lemma byteArray_toList (bs : ByteArray) : bs.toList = bs.data.toList := by
  rw [ByteArray.toList, byteArray_toList_loop]
  rfl

namespace Tracker

/-! ### The text of a value -/

lemma fromUTF8?_textBytes (s : String) : String.fromUTF8? ⟨(textBytes s).toArray⟩ = some s := by
  have hby : (⟨(textBytes s).toArray⟩ : ByteArray) = s.toUTF8 := by rw [textBytes, byteArray_toList]
  rw [hby, String.toUTF8_eq_toByteArray, String.fromUTF8?, dif_pos s.isValidUTF8]
  rfl

lemma readText_textBytes (h : v.distinctNames) : readText (textBytes v.print) = .ok v := by
  rw [readText, fromUTF8?_textBytes]
  change orFail .malformedJson (Json.parse? v.print) = _
  rw [Json.parse?_print h]
  rfl

/-- A value that can be sent in a frame: it is read back from its text, and the length of the text
fits into four bytes. -/
structure Framed (v : Json) : Prop where
  distinct : v.distinctNames = true
  fits : (textBytes v.print).length < 2 ^ 31

lemma Framed.text_ne_nil (h : Framed v) : textBytes v.print ≠ [] := by
  intro hnil
  have hrd := readText_textBytes h.distinct
  rw [hnil] at hrd
  cases hrd

namespace Receiver

/-! ### What a receiver holds -/

/-- The receiver that holds some bytes and has read what there is of the length at their start. -/
def holding (bytes : List UInt8) : Receiver := measured { buffer := bytes }

lemma holding_buffer (bytes : List UInt8) : (holding bytes).buffer = bytes := by
  rw [holding, measured]
  split <;> rfl

lemma measured_measured (r : Receiver) : r.measured.measured = r.measured := by
  by_cases h : (r.size == 0 && decide (4 ≤ r.buffer.length)) = true
  · have hms : r.measured = { r with size := ofSignedBytes _ } := if_pos h
    rw [hms, measured]
    split <;> rfl
  · have hms : r.measured = r := if_neg h
    rw [hms, hms]

lemma measured_holding (bytes : List UInt8) : (holding bytes).measured = holding bytes := measured_measured _

/-- Taking a frame out depends on the length that can be read. -/
lemma next_measured (r : Receiver) : r.measured.next = r.next := by rw [next, next, measured_measured]

lemma measured_feed_holding (bytes chunk : List UInt8) :
    ((holding bytes).feed chunk).measured = holding (bytes ++ chunk) := by
  by_cases hlen : 4 ≤ bytes.length
  · have hhl : holding bytes = ⟨bytes, ofSignedBytes (bytes.take 4)⟩ := by
      simp [holding, measured, hlen]
    have hall : holding (bytes ++ chunk) = ⟨bytes ++ chunk, ofSignedBytes (bytes.take 4)⟩ := by
      simp [holding, measured, hlen, take_append_of_le_length, Nat.le_add_right_of_le]
    rw [hhl, hall, feed, measured, take_append_of_le_length hlen]
    split <;> rfl
  · have hhl : holding bytes = ⟨bytes, 0⟩ := by
      simp [holding, measured, hlen]
    rw [hhl]
    rfl

lemma next_feed_holding (bytes chunk : List UInt8) :
    ((holding bytes).feed chunk).next = (holding (bytes ++ chunk)).next := by
  rw [← next_measured, measured_feed_holding]

/-! ### Taking a frame out -/

lemma length_signedBytes (width : Nat) (n : Int) : (signedBytes width n).length = width := length_littleEndian width _

lemma length_frame (v : Json) : (frame v).length = (textBytes v.print).length + 4 := by
  rw [frame, frameParts, length_append, length_signedBytes, add_comm]

lemma take_frame (v : Json) : (frame v).take 4 = signedBytes 4 (textBytes v.print).length := by
  rw [frame, frameParts, take_append_of_le_length (length_signedBytes 4 _).ge,
    take_of_length_le (length_signedBytes 4 _).le]

lemma drop_frame (v : Json) : (frame v).drop 4 = textBytes v.print := by
  rw [frame, frameParts, drop_append_of_le_length (length_signedBytes 4 _).ge,
    drop_eq_nil_of_le (length_signedBytes 4 _).le, nil_append]

lemma holding_frame (hv : Framed v) (htk : bytes.take 4 = (frame v).take 4) (hlen : 4 ≤ bytes.length) :
    holding bytes = ⟨bytes, (textBytes v.print).length⟩ := by
  have hsz : ofSignedBytes (bytes.take 4) = (textBytes v.print).length := by
    rw [htk, take_frame]
    exact ofSignedBytes_signedBytes (by have := hv.fits; omega)
  simp [holding, measured, hlen, hsz]

lemma next_frame (hv : Framed v) (rest : List UInt8) :
    (holding (frame v ++ rest)).next = (some (textBytes v.print), { buffer := rest }) := by
  have hlen := length_frame v
  have hfr : 4 ≤ (frame v).length := by omega
  have hhl : holding (frame v ++ rest) = ⟨frame v ++ rest, (textBytes v.print).length⟩ :=
    holding_frame hv (take_append_of_le_length hfr) (by rw [length_append]; omega)
  have hpos : (textBytes v.print).length ≠ 0 := by simpa using hv.text_ne_nil
  have hst : position (frame v ++ rest).length ((textBytes v.print).length + 4) = (frame v).length := by
    rw [position]
    omega
  have hcm : (((textBytes v.print).length : Int) != 0 &&
      decide (((textBytes v.print).length : Int) + 4 ≤ ((frame v ++ rest).length : Int))) := by
    rw [Bool.and_eq_true, bne_iff_ne, decide_eq_true_eq, length_append]
    omega
  rw [next, measured_holding, hhl]
  dsimp only
  rw [if_pos hcm, hst, take_left, drop_left, drop_frame]

lemma next_of_lt (hv : Framed v) (h : bytes <+: frame v) (hlt : bytes.length < (frame v).length) :
    (holding bytes).next = (none, holding bytes) := by
  have hln := length_frame v
  rw [next, measured_holding]
  refine if_neg ?_
  by_cases hlen : 4 ≤ bytes.length
  · obtain ⟨rest, hr⟩ := h
    have hhl : holding bytes = ⟨bytes, (textBytes v.print).length⟩ :=
      holding_frame hv (by rw [← hr, take_append_of_le_length hlen]) hlen
    rw [hhl, Bool.and_eq_true, decide_eq_true_eq]
    dsimp only
    omega
  · have hhl : holding bytes = ⟨bytes, 0⟩ := by
      simp [holding, measured, hlen]
    rw [hhl]
    simp

lemma next_holding_nil : (holding []).next = (none, holding []) := rfl

end Receiver

/-! ### Values in a stream

Values are sent as frames, one after another, and the bytes arrive in chunks that are cut anywhere.
A connection answers exactly the values whose frames have arrived completely, in order and each
once, and keeps the bytes after them.
-/

open Receiver Nat Server

variable {s t u : Server} {r : Receiver} {vs : List Json} {bytes chunk held more rest rest' : List UInt8} {c k k' fuel : Nat}

/-! ### How far a stream has come -/

/-- Some bytes of the stream of values are the frames of the first `k` values and a rest that does
not complete the next one. -/
structure Covers (vs : List Json) (bytes : List UInt8) (k : Nat) (rest : List UInt8) : Prop where
  le_length : k ≤ vs.length
  bytes_eq : bytes = (vs.take k).flatMap frame ++ rest
  rest_prefix : rest <+: (vs.drop k).flatMap frame
  incomplete : ∀ v ∈ vs[k]?, rest.length < (frame v).length

lemma covers_nil (vs : List Json) : Covers vs [] 0 [] where
  le_length := zero_le _
  bytes_eq := by simp
  rest_prefix := nil_prefix
  incomplete v _ := by
    rw [length_frame]
    simp

lemma Covers.le_bytes (h : Covers vs bytes k rest) : k ≤ bytes.length := by
  have hfr (ws : List Json) : ws.length ≤ (ws.flatMap frame).length := by
    induction ws with
    | nil => exact zero_le _
    | cons w ws ih =>
      rw [flatMap_cons, length_append, length_frame, length_cons]
      omega
  have hk := hfr (vs.take k)
  have hle := h.le_length
  rw [length_take] at hk
  rw [h.bytes_eq, length_append]
  omega

lemma exists_covers (h : bytes <+: vs.flatMap frame) : ∃ k rest, Covers vs bytes k rest := by
  induction vs generalizing bytes with
  | nil => exact ⟨0, bytes, le_refl _, by simp, h, by simp⟩
  | cons v vs ih =>
    rcases lt_or_ge bytes.length (frame v).length with hlt | hge
    · exact ⟨0, bytes, zero_le _, by simp, h, by simpa using hlt⟩
    · obtain ⟨bytes', rfl⟩ : frame v <+: bytes := prefix_of_prefix_length_le (prefix_append ..) h hge
      obtain ⟨k, rest, hk, hby, hpr, hin⟩ := ih ((prefix_append_right_inj _).1 h)
      refine ⟨k + 1, rest, succ_le_succ hk, ?_, hpr, by simpa using hin⟩
      rw [take_succ_cons, flatMap_cons, append_assoc, ← hby]

/-- What a connection holds grows by a chunk, and what comes after is a stream of its own. -/
lemma Covers.trans (h : Covers vs bytes k rest) (h' : Covers (vs.drop k) (rest ++ more) k' rest') :
    Covers vs (bytes ++ more) (k + k') rest' where
  le_length := by
    have := h.le_length
    have := h'.le_length
    rw [length_drop] at this
    omega
  bytes_eq := by rw [h.bytes_eq, append_assoc, h'.bytes_eq, take_add, flatMap_append, append_assoc]
  rest_prefix := by
    rw [← drop_drop]
    exact h'.rest_prefix
  incomplete := by
    have hin := h'.incomplete
    rwa [getElem?_drop] at hin

lemma Covers.left (h : Covers vs bytes k rest) : Covers (vs.drop k) rest 0 rest where
  le_length := zero_le _
  bytes_eq := by simp
  rest_prefix := h.rest_prefix
  incomplete := by
    rw [getElem?_drop]
    exact h.incomplete

/-- When the whole stream has come, nothing is left. -/
lemma Covers.eq_length (h : Covers vs (vs.flatMap frame) k rest) : k = vs.length ∧ rest = [] := by
  have hr : rest = (vs.drop k).flatMap frame := by
    have hall := h.bytes_eq
    conv_lhs at hall => rw [← take_append_drop k vs, flatMap_append]
    exact (append_cancel_left hall).symm
  cases hdr : vs.drop k with
  | nil =>
    rw [hdr] at hr
    exact ⟨le_antisymm h.le_length (drop_eq_nil_iff.1 hdr), hr⟩
  | cons v vs' =>
    have hv : vs[k]? = some v := by rw [← head?_drop, hdr, head?_cons]
    have hlt := h.incomplete v hv
    rw [hr, hdr, flatMap_cons, length_append] at hlt
    omega

/-! ### Answering what has arrived -/

section Answers

variable {answer : Json → Tracking Unit}

lemma run_forM_append {vs' : List Json} (h : ((vs ++ vs').forM answer).run.run s = (.ok (), t)) :
    ∃ u, (vs.forM answer).run.run s = (.ok (), u) ∧ (vs'.forM answer).run.run u = (.ok (), t) := by
  have hap : (vs ++ vs').forM answer = vs.forM answer >>= fun _ => vs'.forM answer := forM_append
  rw [hap] at h
  obtain ⟨_, u, hvs, hvs'⟩ := exists_of_step_bind_run h
  exact ⟨u, hvs, hvs'⟩

lemma run_handleFrames_none (hnx : (s.connection c).receiver.next = (none, r)) (fuel : Nat) :
    (handleFrames answer c (fuel + 1)).run.run s = (.ok (), s.hear c r) := by
  rw [handleFrames, run_connection_bind, hnx]
  rfl

lemma run_handleFrames_some {v : Json} (hv : Framed v)
    (hnx : (s.connection c).receiver.next = (some (textBytes v.print), r)) (fuel : Nat) :
    (handleFrames answer c (fuel + 1)).run.run s =
      (answer v >>= fun _ => handleFrames answer c fuel).run.run (s.hear c r) := by
  rw [handleFrames, run_connection_bind, hnx]
  dsimp only
  rw [readText_textBytes hv.distinct]
  rfl

variable (hanswer : ∀ v, Indifferent c (answer v)) (hvs : ∀ v ∈ vs, Framed v) (hc : c < s.connections.length)
include hanswer hvs hc

/-- The complete frames that a connection holds are answered in order, and the rest is held. -/
lemma run_handleFrames (hcv : Covers vs bytes k rest)
    (hrun : ((vs.take k).forM answer).run.run s = (.ok (), u)) (hr : r.next = (holding bytes).next)
    (hfl : k < fuel) : (handleFrames answer c fuel).run.run (s.hear c r) = (.ok (), u.hear c (holding rest)) := by
  induction k generalizing vs bytes s r fuel with
  | zero =>
    obtain ⟨fuel, rfl⟩ := exists_eq_add_one.2 hfl.pos
    obtain rfl : bytes = rest := by simpa using hcv.bytes_eq
    obtain rfl : s = u := congrArg Prod.snd hrun
    have hhl : (holding bytes).next = (none, holding bytes) := by
      cases vs with
      | nil =>
        obtain rfl : bytes = [] := prefix_nil.1 hcv.rest_prefix
        exact next_holding_nil
      | cons v vs =>
        have hlt : bytes.length < (frame v).length := hcv.incomplete v rfl
        have hpr : bytes <+: frame v ++ vs.flatMap frame := hcv.rest_prefix
        exact next_of_lt (hvs v mem_cons_self) (prefix_of_prefix_length_le hpr (prefix_append ..) hlt.le) hlt
    have hnx : ((s.hear c r).connection c).receiver.next = (none, holding bytes) := by
      rw [connection_hear_self hc]
      exact hr.trans hhl
    rw [run_handleFrames_none hnx, hear_hear]
  | succ k ih =>
    obtain ⟨fuel, rfl⟩ := exists_eq_add_one.2 hfl.pos
    cases vs with
    | nil => exact absurd hcv.le_length (not_succ_le_zero k)
    | cons v vs =>
      -- the first frame is complete; what follows it covers one value less
      obtain ⟨hle, hby, hpr, hin⟩ := hcv
      rw [take_succ_cons, flatMap_cons, append_assoc] at hby
      have hcv' : Covers vs ((vs.take k).flatMap frame ++ rest) k rest :=
        ⟨le_of_succ_le_succ hle, rfl, hpr, by simpa using hin⟩
      have hv : Framed v := hvs v mem_cons_self
      have hnx : ((s.hear c r).connection c).receiver.next =
          (some (textBytes v.print), { buffer := (vs.take k).flatMap frame ++ rest }) := by
        rw [connection_hear_self hc]
        rw [hby, next_frame hv] at hr
        exact hr
      obtain ⟨_, s', hst, hot⟩ : ∃ (a : Unit) (s' : Server), (answer v).run.run s = (.ok a, s') ∧
          ((vs.take k).forM answer).run.run s' = (.ok (), u) := exists_of_step_bind_run hrun
      have hc' : c < s'.connections.length := by
        have hlen := (hanswer v).length_le s
        rw [hst] at hlen
        exact lt_of_lt_of_le hc hlen
      rw [run_handleFrames_some hv hnx, hear_hear, step_bind_run, (hanswer v).run_hear, hst]
      exact ih (fun w hw => hvs w (mem_cons_of_mem v hw)) hc' hcv' hot (next_measured _).symm (lt_of_succ_lt_succ hfl)

lemma run_receiveWith (hcv : Covers vs (held ++ chunk) k rest)
    (hgr : (s.connection c).greeted) (hrun : ((vs.take k).forM answer).run.run s = (.ok (), u)) :
    (receiveWith answer c chunk).run.run (s.hear c (holding held)) = (.ok (), u.hear c (holding rest)) := by
  have hcn := connection_hear_self hc (holding held)
  have hfd : (s.hear c (holding held)).update c (fun x => { x with receiver := x.receiver.feed chunk }) =
      s.hear c ((holding held).feed chunk) := by
    simp only [hear, Server.update, modify_modify_eq]
    rfl
  have hlen : ((s.hear c ((holding held).feed chunk)).connection c).receiver.buffer.length =
      (held ++ chunk).length := by
    rw [connection_hear_self hc]
    change ((holding held).buffer ++ chunk).length = _
    rw [holding_buffer]
  have hfr := run_handleFrames hanswer hvs hc hcv hrun (next_feed_holding held chunk) (lt_succ_of_le hcv.le_bytes)
  rw [receiveWith, run_connection_bind, hcn, if_neg (by simp [Connection.hear, hgr])]
  rw [run_update_bind, run_connection_bind, hfd, hlen]
  exact hfr

/-- Chunks are answered by the values that they complete, one chunk after another. -/
lemma run_chunks {chunks : List (List UInt8)} (hhl : Covers vs held 0 held)
    (hch : held ++ chunks.flatten <+: vs.flatMap frame) (hgr : (s.connection c).greeted)
    (hrun : (vs.forM answer).run.run s = (.ok (), t)) : ∃ k rest u, Covers vs (held ++ chunks.flatten) k rest ∧
      ((vs.take k).forM answer).run.run s = (.ok (), u) ∧
        (chunks.forM (receiveWith answer c)).run.run (s.hear c (holding held)) = (.ok (), u.hear c (holding rest)) := by
  induction chunks generalizing vs held s with
  | nil =>
    rw [flatten_nil, append_nil]
    exact ⟨0, held, s, hhl, rfl, rfl⟩
  | cons chunk chunks ih =>
    rw [flatten_cons, ← append_assoc] at hch ⊢
    obtain ⟨k, rest, hcv⟩ := exists_covers ((prefix_append ..).trans hch)
    obtain ⟨u, hfst, hot⟩ : ∃ u, ((vs.take k).forM answer).run.run s = (.ok (), u) ∧
        ((vs.drop k).forM answer).run.run u = (.ok (), t) :=
      run_forM_append (by rwa [take_append_drop])
    have hin := Indifferent.forM hanswer (vs.take k)
    have hc' : c < u.connections.length := by
      have hlen := hin.length_le s
      rw [hfst] at hlen
      exact lt_of_lt_of_le hc hlen
    have hgr' : (u.connection c).greeted := by
      have hkp := hin.greeted s hc
      rw [hfst] at hkp
      exact hkp.trans hgr
    have hmr : rest ++ chunks.flatten <+: (vs.drop k).flatMap frame := by
      rw [hcv.bytes_eq, append_assoc, ← take_append_drop k vs, flatMap_append, take_append_drop] at hch
      exact (prefix_append_right_inj _).1 hch
    obtain ⟨k', rest', u', hcv', hrn', hch'⟩ := ih (fun v hv => hvs v (mem_of_mem_drop hv)) hc' hcv.left hmr hgr' hot
    refine ⟨k + k', rest', u', hcv.trans hcv', ?_, ?_⟩
    · have htk : (vs.take (k + k')).forM answer =
          (vs.take k).forM answer >>= fun _ => ((vs.drop k).take k').forM answer := by
        rw [take_add]
        exact forM_append
      rw [htk, step_bind_run, hfst]
      exact hrn'
    · have hcn : (chunk :: chunks).forM (receiveWith answer c) =
          receiveWith answer c chunk >>= fun _ => chunks.forM _ := rfl
      rw [hcn, step_bind_run, run_receiveWith hanswer hvs hc hcv hgr hfst]
      exact hch'

end Answers

/-! ### The values of a stream -/

/-- However the stream of the frames of some values is cut into chunks, a connection that has been
greeted hands over exactly the values that are complete, in order and each once, and holds exactly
the bytes after them. `answer` is any way to answer values that leaves the receiver alone. -/
theorem chunks_answered_in_order {answer : Json → Tracking Unit} {c : Nat}
    (hanswer : ∀ v, Indifferent c (answer v)) {s t : Server} (hc : c < s.connections.length)
    (hgreeted : (s.connection c).greeted = true) (hempty : (s.connection c).receiver = {})
    {vs : List Json} (hvs : ∀ v ∈ vs, Framed v) {chunks : List (List UInt8)}
    (hchunks : chunks.flatten <+: vs.flatMap frame) (hrun : (vs.forM answer).run.run s = (.ok (), t)) :
    ∃ k rest u,
      k ≤ vs.length ∧ chunks.flatten = (vs.take k).flatMap frame ++ rest ∧
      (∀ v ∈ vs[k]?, rest.length < (frame v).length) ∧
      (chunks.flatten = vs.flatMap frame → k = vs.length ∧ rest = []) ∧
      ((vs.take k).forM answer).run.run s = (.ok (), u) ∧
      (chunks.forM (receiveWith answer c)).run.run s = (.ok (), u.hear c (holding rest)) ∧
      ((u.hear c (holding rest)).connection c).receiver.buffer = rest := by
  have hstart : s.hear c (holding []) = s := hear_self hempty
  obtain ⟨k, rest, u, hcovers, htaken, hreceived⟩ :=
    run_chunks hanswer hvs hc (covers_nil vs) (by simpa using hchunks) hgreeted hrun
  rw [hstart] at hreceived
  have hlength := (Indifferent.forM hanswer (vs.take k)).length_le s
  rw [htaken] at hlength
  refine ⟨k, rest, u, hcovers.le_length, hcovers.bytes_eq, hcovers.incomplete, ?_, htaken, hreceived, ?_⟩
  · intro hall
    rw [hall] at hcovers
    exact hcovers.eq_length
  · rw [connection_hear_self (lt_of_lt_of_le hc hlength)]
    exact holding_buffer rest

/-- A tracker with one connection, which has been greeted. -/
def oneGreeted : Server := { stopKey := "stop", connections := [{ host := "here", greeted := true }] }

/-- A message to see whether the tracker is there, and one that asks for the keys that wait. -/
def twoMessages : List Json := [.arr [.int 1], .arr [.int 7]]

/-- Their frames, cut within the first length and within the second text. -/
def twoMessagesCut : List (List UInt8) := [[3, 0, 0], [0, 91, 49, 93, 3], [0, 0, 0, 91, 55]]

lemma frame_twoMessages : twoMessages.flatMap frame = [3, 0, 0, 0, 91, 49, 93, 3, 0, 0, 0, 91, 55, 93] := by
  decide +kernel

/-- The tracker answers the first message of the two and holds what there is of the second. -/
theorem twoMessagesCut_answered :
    (∀ v, Indifferent 0 (handleValue 0 v)) ∧ twoMessagesCut.flatten <+: twoMessages.flatMap frame ∧
    ∃ k rest u,
      k ≤ twoMessages.length ∧ twoMessagesCut.flatten = (twoMessages.take k).flatMap frame ++ rest ∧
      (∀ v ∈ twoMessages[k]?, rest.length < (frame v).length) ∧
      (twoMessagesCut.flatten = twoMessages.flatMap frame → k = twoMessages.length ∧ rest = []) ∧
      ((twoMessages.take k).forM (handleValue 0)).run.run oneGreeted = (.ok (), u) ∧
      (receiveAll 0 twoMessagesCut).run.run oneGreeted = (.ok (), u.hear 0 (holding rest)) ∧
      ((u.hear 0 (holding rest)).connection 0).receiver.buffer = rest := by
  have hcut : twoMessagesCut.flatten <+: twoMessages.flatMap frame := by
    rw [frame_twoMessages]
    exact ⟨[93], rfl⟩
  have hframed : ∀ v ∈ twoMessages, Framed v := by
    intro v hv
    simp only [twoMessages, List.mem_cons, List.not_mem_nil, or_false] at hv
    rcases hv with rfl | rfl
    · exact ⟨rfl, by decide +kernel⟩
    · exact ⟨rfl, by decide +kernel⟩
  have hrun : (twoMessages.forM (handleValue 0)).run.run oneGreeted =
      (.ok (), ((twoMessages.forM (handleValue 0)).run.run oneGreeted).2) := Prod.ext rfl rfl
  exact ⟨indifferent_handleValue 0, hcut, chunks_answered_in_order (indifferent_handleValue 0) (by decide) rfl rfl
    hframed hcut hrun⟩

end Tracker

end TensorToolchain
