import TensorToolchain.DataType
import TensorToolchain.Proofs.Text.Reading

/-!
# Names of element types

A type is read back from its name, unless it has one bit and one lane and is not unsigned: such a
type is named like the truth values. The names in the table are made of the same parts as all
others.
-/

namespace TensorToolchain.DataType

open List

variable {t u : DataType} {name s : String} {a r p : List Char} {ps : List (List Char)} {n : ℕ}

lemma splitChar_append (ha : 'x' ∉ a) (h : Text.splitChar 'x' r = p :: ps) :
    Text.splitChar 'x' (a ++ r) = (a ++ p) :: ps := by
  induction a with
  | nil => exact h
  | cons c a ih =>
    rw [mem_cons, not_or] at ha
    have hs := ih ha.2
    rw [Text.splitChar] at hs ⊢
    simp [Text.splitBy, Ne.symm ha.1, hs]

lemma notMem_repr (n : ℕ) : 'x' ∉ n.repr.toList := fun h => absurd (Number.isDigit_of_mem_repr h) (by decide)

lemma number_repr (n : ℕ) : number n.repr.toList = .ok n := by
  rw [number, Text.readInt?_digits (fun _ => Number.isDigit_of_mem_repr) (Text.repr_ne_nil n), Number.ofDigits_repr]

lemma classOf?_word (k : NumberClass) (r : List Char) : classOf? (k.word.toList ++ r) = some (k, r) := by
  cases k <;> rfl

/-- The parts of a name are those of a type. -/
def Spells (name : String) (t : DataType) : Prop :=
  ∃ head rest, lanesOf name = (head, .ok t.lanes.toNat) ∧ classOf? head = some (t.numbers, rest) ∧
    widthOf t.numbers rest = .ok t.bits.toNat

lemma Spells.unique (ht : Spells name t) (hu : Spells name u) : t = u := by
  obtain ⟨head, rest, hl, hc, hw⟩ := ht
  obtain ⟨head', rest', hl', hc', hw'⟩ := hu
  obtain ⟨rfl, hlanes⟩ := Prod.mk.inj (hl.symm.trans hl')
  obtain ⟨hk, rfl⟩ := Prod.mk.inj (Option.some.inj (hc.symm.trans hc'))
  rw [hk, hw'] at hw
  cases t
  cases u
  simp_all [UInt8.toNat_inj, UInt16.toNat_inj]

lemma spells_name (hh : t.numbers = .handle → t.bits = 64) (hb : ¬ (t.bits = 1 ∧ t.lanes = 1)) : Spells t.name t := by
  have hx : 'x' ∉ t.numbers.word.toList ++ t.bits.toNat.repr.toList := by
    rw [mem_append, not_or]
    exact ⟨by cases t.numbers <;> decide, notMem_repr _⟩
  refine ⟨_, _, ?_, classOf?_word t.numbers t.bits.toNat.repr.toList, ?_⟩
  · by_cases hl : t.lanes = 1
    · have hname : t.name.toList = (t.numbers.word.toList ++ t.bits.toNat.repr.toList) ++ [] := by
        simp_all [name]
      rw [lanesOf, hname, splitChar_append hx rfl, append_nil, hl]
      rfl
    · have hname : t.name.toList =
          (t.numbers.word.toList ++ t.bits.toNat.repr.toList) ++ 'x' :: t.lanes.toNat.repr.toList := by
        simp [name, hl]
      have hs := splitChar_append (notMem_repr t.lanes.toNat) (rfl : Text.splitChar 'x' [] = [[]])
      rw [append_nil] at hs
      have hcut : Text.splitChar 'x' ('x' :: t.lanes.toNat.repr.toList) = [[], t.lanes.toNat.repr.toList] :=
        congrArg ([] :: ·) hs
      rw [lanesOf, hname, splitChar_append hx hcut, append_nil]
      simp only [number_repr]
  · cases hk : t.numbers with
    | handle => rw [hh hk]; rfl
    | _ => rw [widthOf, if_neg (by simp), number_repr]; simp

lemma spells_of_mem_known : ∀ e ∈ known, e.2.numbers ≠ .handle ∧ (e.1 = "bool" ∨ Spells e.1 e.2) := by
  have hall : ∀ e ∈ known, e.2.name = e.1 ∧ e.2.numbers ≠ .handle ∧
      (e.1 = "bool" ∨ ¬ (e.2.bits = 1 ∧ e.2.lanes = 1)) := by decide +kernel
  intro e he
  obtain ⟨hname, hh, hb⟩ := hall e he
  exact ⟨hh, hb.imp_right fun hb => hname ▸ spells_name (absurd · hh) hb⟩

lemma not_spells_bool : ¬ Spells "bool" t := by
  rintro ⟨head, rest, hl, hc, -⟩
  obtain ⟨rfl, -⟩ := Prod.mk.inj (hl.symm.trans rfl)
  cases hc

lemma mem_known_of_lookup (h : known.lookup name = some t) : (name, t) ∈ known := by
  obtain ⟨_, _, hl, -⟩ := lookup_eq_some_iff.1 h
  rw [hl]
  exact mem_append_right _ mem_cons_self

lemma Spells.parse_eq_ok (h : Spells name t) : parse name = .ok t := by
  rw [parse]
  split
  · rename_i u hu
    rcases (spells_of_mem_known _ (mem_known_of_lookup hu)).2 with rfl | hs
    · exact absurd h not_spells_bool
    · exact congrArg _ (hs.unique h)
  · obtain ⟨head, rest, hl, hc, hw⟩ := h
    have hbits : .ofInt t.bits.toNat = t.bits := by
      have hlt := t.bits.toNat_lt
      simp [← UInt8.toNat_inj, UInt8.ofInt]
      omega
    have hlanes : .ofInt t.lanes.toNat = t.lanes := by
      have hlt := t.lanes.toNat_lt
      simp [← UInt16.toNat_inj, UInt16.ofInt]
      omega
    simp only [hl, hc, hw, bind, Except.bind, hbits, hlanes]
    rfl

lemma bits_of_handle (h : parse s = .ok t) (ht : t.numbers = .handle) : t.bits = 64 := by
  rw [parse] at h
  split at h
  · rename_i u hu
    obtain rfl := Except.ok.inj h
    exact absurd ht (spells_of_mem_known _ (mem_known_of_lookup hu)).1
  · simp only [bind, Except.bind] at h
    split at h
    · cases h
    split at h
    · split at h
      · cases h
      · rename_i hw
        obtain rfl := Except.ok.inj h
        obtain rfl : _ = NumberClass.handle := ht
        rw [← Except.ok.inj hw]
        rfl
    · split at h
      · split at h <;> cases h
      · cases h

/-- A type is read back from its name exactly if it is unsigned, or has more than one bit or
lane. -/
theorem parse_name_iff (h : parse s = .ok t) :
    parse t.name = .ok t ↔ t.numbers = .uint ∨ ¬ (t.bits = 1 ∧ t.lanes = 1) := by
  by_cases hb : t.bits = 1 ∧ t.lanes = 1
  · have hname : t.name = "bool" := by simp [name, hb]
    have hbool : parse "bool" = .ok ⟨.uint, 1, 1⟩ := rfl
    obtain ⟨k, b, l⟩ := t
    obtain ⟨rfl, rfl⟩ := hb
    rw [hname, hbool]
    simp [eq_comm]
  · simpa [hb] using (spells_name (bits_of_handle h) hb).parse_eq_ok

/-- Width and lanes that do not fit in their words wrap. -/
theorem wrapped_read_back : parse "bfloat272x65538" = .ok ⟨.bfloat, 16, 2⟩ ∧
    parse (⟨.bfloat, 16, 2⟩ : DataType).name = .ok ⟨.bfloat, 16, 2⟩ := by
  have h : parse "bfloat272x65538" = .ok ⟨.bfloat, 16, 2⟩ := by decide +kernel
  exact ⟨h, (parse_name_iff h).2 (.inr (by decide))⟩

/-- A signed type of one bit is read back as the type of truth values. -/
theorem signedBit_read_as_bool : parse "int1" = .ok ⟨.int, 1, 1⟩ ∧ (⟨.int, 1, 1⟩ : DataType).name = "bool" ∧
    parse "bool" = .ok ⟨.uint, 1, 1⟩ ∧ parse (⟨.int, 1, 1⟩ : DataType).name ≠ .ok ⟨.int, 1, 1⟩ := by
  decide +kernel

end TensorToolchain.DataType
