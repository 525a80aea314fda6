import TensorToolchain.Firmware.StorageMap
import TensorToolchain.Proofs.Faults

/-!
# Storages that hold their entries

The bytes of a storage are those of the data entry that has the number of the storage. So a storage
is large enough for all entries that use it exactly if the entry of its number is.
-/

namespace TensorToolchain.Firmware

open List

/-- An index names a position in a list of some length; a negative one counts from the end. -/
def Names (length : Nat) (index : Int) (k : Nat) : Prop := k < length ∧ ((k : Int) = index ∨ (k : Int) = index + length)

lemma Names.unique {length k l : Nat} {index : Int} (hk : Names length index k)
    (hl : Names length index l) : k = l := by
  obtain ⟨hk, hk'⟩ := hk
  obtain ⟨hl, hl'⟩ := hl
  omega

lemma itemAt_eq_ok {α : Type} {xs : List α} {i : Int} {a : α} :
    Value.itemAt xs i = .ok a ↔ ∃ k, Names xs.length i k ∧ xs[k]? = some a := by
  have hlt {k : Nat} (h : xs[k]? = some a) : k < xs.length := (List.getElem?_eq_some_iff.1 h).1
  rw [Value.itemAt]
  generalize hj : (if i < 0 then i + xs.length else i) = j
  split_ifs with hlow
  · refine ⟨nofun, ?_⟩
    rintro ⟨k, ⟨hk, hk'⟩, -⟩
    omega
  · rw [orFail_eq_ok]
    constructor
    · exact fun h => ⟨_, ⟨hlt h, by omega⟩, h⟩
    · rintro ⟨k, ⟨hk, hk'⟩, h⟩
      obtain rfl : j.toNat = k := by omega
      exact h

namespace StoragePlan

/-- There is a shape and an element type for each data entry, and a name for each argument. -/
structure Described (p : StoragePlan) : Prop where
  shapes : p.shapes.length = p.storages.length
  types : p.types.length = p.storages.length
  bits : ∀ type ∈ p.types, (elementBits? type).isSome
  arguments : ∀ n : Nat, (n : Int) ∈ p.arguments → n < p.names.length

def entryBytes (p : StoragePlan) (n : Nat) : Int :=
  packedBytes (p.shapes.getD n []) ((elementBits? (p.types.getD n "")).getD 0)

/-- A data entry has the number of a storage. -/
def Namesake (p : StoragePlan) (storage : Int) (k : Nat) : Prop := Names p.storages.length storage k

/-- Each storage stands once, in the order of first use, and holds all data entries that use it. -/
def Covers (p : StoragePlan) (es : List StorageEntry) : Prop :=
  es.map (·.storage) = p.storages.eraseDups ∧
    ∀ e ∈ es, ∀ n : Nat, p.storages[n]? = some e.storage → p.entryBytes n ≤ e.bytes

variable {p : StoragePlan} {storage : Int} {seen storages : List Int} {node k : Nat} {es : List StorageEntry}

section

variable (hp : p.Described)
include hp

lemma Described.entryFor_eq_ok (hk : p.Namesake storage k) (node : Nat) :
    ∃ binding, p.entryFor node storage = .ok ⟨storage, p.entryBytes k, binding⟩ := by
  have hsh : k < p.shapes.length := hp.shapes ▸ hk.1
  have hty : k < p.types.length := hp.types ▸ hk.1
  obtain ⟨bits, hbt⟩ := Option.isSome_iff_exists.1 (hp.bits _ (getElem_mem hty))
  rw [entryFor, itemAt_eq_ok.2 ⟨k, hp.shapes ▸ hk, getElem?_eq_getElem hsh⟩, ok_bind,
    itemAt_eq_ok.2 ⟨k, hp.types ▸ hk, getElem?_eq_getElem hty⟩, ok_bind, entryBytes,
    getD_eq_getElem _ _ hsh, getD_eq_getElem _ _ hty, hbt]
  by_cases harg : (node : Int) ∈ p.arguments
  · simp [harg, getElem?_eq_getElem (hp.arguments node harg), Except.map]
  · exact ⟨none, by simp [harg]⟩

/-- Storages with namesakes get an entry each, in the order of first use, with the bytes of the
namesake. -/
lemma Described.entriesFrom_eq_ok (seen : List Int) (node : Nat) (h : ∀ s ∈ storages, ∃ k, p.Namesake s k) :
    ∃ es, p.entriesFrom seen node storages = .ok es ∧
      es.map (·.storage) = (storages.filter (!seen.contains ·)).eraseDups ∧
      ∀ e ∈ es, ∃ k, p.Namesake e.storage k ∧ e.bytes = p.entryBytes k := by
  induction storages generalizing seen node with
  | nil => exact ⟨[], rfl, rfl, nofun⟩
  | cons s rest ih =>
    obtain ⟨⟨k, hk⟩, hr⟩ := forall_mem_cons.1 h
    rw [entriesFrom]
    by_cases hsn : seen.contains s
    · rw [if_pos hsn, filter_cons_of_neg (by simpa using hsn)]
      exact ih seen _ hr
    · obtain ⟨binding, hen⟩ := hp.entryFor_eq_ok hk node
      obtain ⟨es, hes, hst, hby⟩ := ih _ _ hr
      refine ⟨⟨s, p.entryBytes k, binding⟩ :: es, ?_, ?_, forall_mem_cons.2 ⟨⟨k, hk, rfl⟩, hby⟩⟩
      · rw [if_neg hsn, hen, hes]
        rfl
      · have hfl : (rest.filter (!(s :: seen).contains ·)) = rest.filter fun t => !t == s && !seen.contains t :=
          filter_congr fun t _ => by rw [contains_cons, Bool.not_or]
        rw [filter_cons_of_pos (by simpa using hsn), eraseDups_cons, filter_filter, map_cons, hst, hfl]

lemma Described.exists_namesake (h : p.entriesFrom seen node storages = .ok es) :
    ∀ s ∈ storages, s ∉ seen → ∃ k, p.Namesake s k := by
  induction storages generalizing seen node es with
  | nil => exact nofun
  | cons s rest ih =>
    rw [entriesFrom] at h
    split_ifs at h with hsn
    · refine forall_mem_cons.2 ⟨absurd (contains_iff_mem.1 hsn), ih h⟩
    · obtain ⟨entry, hen, h⟩ := bind_eq_ok.1 h
      obtain ⟨rest', hr, -⟩ := bind_eq_ok.1 h
      obtain ⟨dims, hdm, -⟩ := bind_eq_ok.1 hen
      obtain ⟨k, hk, -⟩ := itemAt_eq_ok.1 hdm
      have hs : ∃ k, p.Namesake s k := ⟨k, by rwa [hp.shapes] at hk⟩
      refine forall_mem_cons.2 ⟨fun _ => hs, fun t ht hsn => ?_⟩
      by_cases hts : t = s
      · exact hts ▸ hs
      · exact ih hr t ht (by simp [hts, hsn])

end

end StoragePlan

open StoragePlan

variable {graph : Json} {p : StoragePlan}

/-- The map of the storages lists each of them once, in the order of first use, and large enough for
all data entries that use it, exactly if the data entry with the number of the storage is. -/
theorem storageMap_covers_iff (h : StoragePlan.ofJson graph = .ok p) (hp : p.Described) :
    (∃ es, storageMap graph = .ok es ∧ p.Covers es) ↔ ∀ (n : Nat) s, p.storages[n]? = some s →
      ∃ k, p.Namesake s k ∧ p.entryBytes n ≤ p.entryBytes k := by
  have hmap : storageMap graph = p.entriesFrom [] 0 p.storages := by rw [storageMap, h, ok_bind, entries]
  have hentries := fun hall => hp.entriesFrom_eq_ok [] 0 (h := (hall : ∀ s ∈ p.storages, _))
  simp only [contains_nil, Bool.not_false, filter_true] at hentries
  rw [hmap]
  constructor
  · rintro ⟨es, hes, hstorages, hcovers⟩ n s hs
    obtain ⟨es', hes', -, hbytes⟩ := hentries fun s hs => hp.exists_namesake hes s hs not_mem_nil
    obtain rfl : es = es' := Except.ok.inj (hes.symm.trans hes')
    obtain ⟨e, he, rfl⟩ : ∃ e ∈ es, e.storage = s := by
      rw [← mem_map, hstorages, mem_eraseDups]
      exact mem_of_getElem? hs
    obtain ⟨k, hk, hbytes⟩ := hbytes e he
    exact ⟨k, hk, hbytes ▸ hcovers e he n hs⟩
  · intro hnamesake
    obtain ⟨es, hes, hstorages, hbytes⟩ := hentries fun s hs => by
      obtain ⟨n, hn⟩ := mem_iff_getElem?.1 hs
      obtain ⟨k, hk, -⟩ := hnamesake n s hn
      exact ⟨k, hk⟩
    refine ⟨es, hes, hstorages, fun e he n hn => ?_⟩
    obtain ⟨k, hk, hle⟩ := hnamesake n _ hn
    obtain ⟨l, hl, hbytes⟩ := hbytes e he
    rwa [hbytes, ← hk.unique hl]

/-- The graph of a plan. -/
def StoragePlan.toJson (p : StoragePlan) : Json :=
  let column := fun (items : List Json) => Json.arr [.null, .arr items]
  .obj [("attrs", .obj [("storage_id", column (p.storages.map .int)),
      ("shape", column (p.shapes.map fun s => .arr (s.map .int))), ("dltype", column (p.types.map .str))]),
    ("arg_nodes", .arr (p.arguments.map .int)), ("nodes", .arr (p.names.map fun name => .obj [("name", .str name)]))]

/-- Three entries, the last of which takes the storage of the first. -/
def reused : StoragePlan := ⟨[0, 1, 0], [[4], [2], [3]], ["float32", "int8", "int1"], [1], ["a", "b", "c"]⟩

theorem reused_covered : StoragePlan.ofJson reused.toJson = .ok reused ∧ reused.Described ∧
    ∃ es, storageMap reused.toJson = .ok es ∧ reused.Covers es := by
  have harguments : ∀ n : Nat, (n : Int) ∈ reused.arguments → n < reused.names.length := by
    simp only [reused, mem_singleton, length_cons, length_nil]
    omega
  have hp : reused.Described := ⟨rfl, rfl, by decide +kernel, harguments⟩
  refine ⟨rfl, hp, (storageMap_covers_iff rfl hp).2 fun n s hs => ?_⟩
  rcases n with _ | _ | _ | n
  · obtain rfl : 0 = s := Option.some.inj hs
    exact ⟨0, ⟨by decide, by decide⟩, by decide +kernel⟩
  · obtain rfl : 1 = s := Option.some.inj hs
    exact ⟨1, ⟨by decide, by decide⟩, by decide +kernel⟩
  · obtain rfl : 0 = s := Option.some.inj hs
    exact ⟨0, ⟨by decide, by decide⟩, by decide +kernel⟩
  · cases hs

/-- Two entries of one storage, the second of which is the larger. -/
def outgrown : StoragePlan := ⟨[0, 0], [[1], [4]], ["float32", "float32"], [], []⟩

/-- An entry whose storage has a number that no entry has. -/
def misnumbered : StoragePlan := ⟨[1], [[1]], ["float32"], [], []⟩

theorem storageMap_not_covering :
    (StoragePlan.ofJson outgrown.toJson = .ok outgrown ∧ outgrown.Described ∧
      storageMap outgrown.toJson = .ok [⟨0, 4, none⟩] ∧ ¬ outgrown.Covers [⟨0, 4, none⟩]) ∧
    StoragePlan.ofJson misnumbered.toJson = .ok misnumbered ∧ misnumbered.Described ∧
      storageMap misnumbered.toJson = .error (.plain .badIndex) := by
  refine ⟨⟨rfl, ⟨rfl, rfl, by decide +kernel, by simp [outgrown]⟩, by decide +kernel, fun h => ?_⟩,
    rfl, ⟨rfl, rfl, by decide +kernel, by simp [misnumbered]⟩, by decide +kernel⟩
  exact absurd (h.2 _ mem_cons_self 1 rfl) (by decide +kernel)

end TensorToolchain.Firmware
