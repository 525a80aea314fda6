import TensorToolchain.Proofs.Json.NumberText
import TensorToolchain.Text

/-!
# Integers and their text

Plain digits are read as the number that they stand for, and every integer is read back from its
text.
-/

namespace TensorToolchain.Text

open List

variable {ds : List Char}

lemma strip_of_not_blank {text : List Char} (h : ∀ c ∈ text, isBlank c = false) : strip isBlank text = text := by
  have hfr : ∀ {cs : List Char}, (∀ c ∈ cs, isBlank c = false) → cs.dropWhile isBlank = cs := by
    intro cs hcs
    cases cs with
    | nil => rfl
    | cons c cs => rw [dropWhile_cons_of_neg (by simp [hcs c mem_cons_self])]
  rw [strip, stripLeft, hfr h, stripRight, hfr fun c hc => h c (mem_reverse.1 hc), reverse_reverse]

/-- A plain digit is no blank, sign or underscore, and has the value of its place among the
digits. -/
lemma digit_cases {c : Char} (h : c.isDigit) :
    isBlank c = false ∧ decimalValue? c = some (c.toNat - '0'.toNat) ∧ c ≠ '_' ∧ c ≠ '-' ∧ c ≠ '+' := by
  have hrn : 48 ≤ c.toNat ∧ c.toNat ≤ 57 := by
    simp only [Char.isDigit, Bool.and_eq_true, decide_eq_true_eq, ge_iff_le, UInt32.le_iff_toNat_le] at h
    exact h
  obtain ⟨n, hn⟩ : ∃ n, c.toNat = n := ⟨_, rfl⟩
  obtain rfl : c = Char.ofNat n := by rw [← hn, Char.ofNat_toNat]
  rw [hn] at hrn
  obtain ⟨hlo, hhi⟩ := hrn
  interval_cases n <;> decide +kernel

section

variable (h : ∀ c ∈ ds, c.isDigit)
include h

lemma digitsValue_digits (acc : Nat) : digitsValue acc ds = some (Nat.ofDigitChars 10 ds acc) := by
  induction ds generalizing acc with
  | nil => rfl
  | cons c ds ih =>
    obtain ⟨-, hv, hun, -⟩ := digit_cases (h c mem_cons_self)
    rw [digitsValue]
    · simp [hv, ih fun d hd => h d (mem_cons_of_mem c hd), Nat.ofDigitChars_cons]
    · simp [hun]
    · simp [hun]

lemma readNat?_digits (hne : ds ≠ []) : readNat? ds = some (Number.ofDigits ds) := by
  cases ds with
  | nil => exact absurd rfl hne
  | cons c ds =>
    obtain ⟨-, hv, -⟩ := digit_cases (h c mem_cons_self)
    rw [readNat?, hv, Number.ofDigits_eq, Nat.ofDigitChars_cons]
    simpa using digitsValue_digits (fun d hd => h d (mem_cons_of_mem c hd)) _

lemma readSign_digits : readSign ds = (false, ds) := by
  cases ds with
  | nil => rfl
  | cons c ds =>
    obtain ⟨-, -, -, hmn, hpl⟩ := digit_cases (h c mem_cons_self)
    rw [readSign]
    · simpa using hmn
    · simpa using hpl

lemma readInt?_digits (hne : ds ≠ []) : readInt? ds = some (Number.ofDigits ds : Int) := by
  rw [readInt?, strip_of_not_blank fun c hc => (digit_cases (h c hc)).1, readSign_digits h]
  simp [readNat?_digits h hne]

end

lemma repr_ne_nil (n : Nat) : n.repr.toList ≠ [] := by
  rw [Nat.toList_repr]
  exact Nat.toDigits_ne_nil

lemma readInt?_toString (n : Int) : readInt? (toString n).toList = some n := by
  have hdg : ∀ m : Nat, ∀ c ∈ m.repr.toList, c.isDigit = true := fun m c hc => Number.isDigit_of_mem_repr hc
  cases n with
  | ofNat m =>
    rw [show (toString (Int.ofNat m)).toList = m.repr.toList from rfl, readInt?_digits (hdg m) (repr_ne_nil m),
      Number.ofDigits_repr]
    rfl
  | negSucc m =>
    have htx : (toString (Int.negSucc m)).toList = '-' :: (m + 1).repr.toList := by
      rw [show toString (Int.negSucc m) = "-" ++ (m + 1).repr from rfl, String.toList_append]
      rfl
    have hpl : ∀ c ∈ '-' :: (m + 1).repr.toList, isBlank c = false := by
      intro c hc
      rcases mem_cons.1 hc with rfl | hc
      · decide +kernel
      · exact (digit_cases (hdg _ c hc)).1
    rw [htx, readInt?, strip_of_not_blank hpl, readSign]
    simp only [readNat?_digits (hdg _) (repr_ne_nil _), Number.ofDigits_repr, if_true]
    rfl

/-- The characters that integers are written with. -/
def isNumeral (c : Char) : Bool := c.isDigit || c == '-'

lemma isNumeral_of_mem_toString {n : Int} {c : Char} (hc : c ∈ (toString n).toList) : isNumeral c := by
  have hdg : ∀ {m : Nat}, c ∈ m.repr.toList → isNumeral c = true := fun hm => by
    rw [isNumeral, Number.isDigit_of_mem_repr hm, Bool.true_or]
  cases n with
  | ofNat m => exact hdg (m := m) hc
  | negSucc m =>
    rw [show toString (Int.negSucc m) = "-" ++ (m + 1).repr from rfl, String.toList_append] at hc
    rcases mem_append.1 hc with hc | hc
    · rw [mem_singleton.1 hc]
      rfl
    · exact hdg hc

variable {a b r s : List Char}

/-- Two texts that go on with another character after words of the same characters agree in both
parts. -/
lemma append_inj_of_all {P : Char → Bool} (ha : ∀ c ∈ a, P c) (hb : ∀ c ∈ b, P c) (hr : r.head?.any P = false)
    (hs : s.head?.any P = false) (h : a ++ r = b ++ s) : a = b ∧ r = s := by
  have hwr : ∀ {w t : List Char}, (∀ c ∈ w, P c) → t.head?.any P = false → (w ++ t).takeWhile P = w := by
    intro w t hw ht
    rw [takeWhile_append_of_pos hw]
    cases t with
    | nil => simp
    | cons c t => rw [takeWhile_cons_of_neg (by simpa using ht), append_nil]
  have hab := congrArg (takeWhile P) h
  rw [hwr ha hr, hwr hb hs] at hab
  exact ⟨hab, append_cancel_left (hab ▸ h)⟩

lemma append_underscore_inj (ha : '_' ∉ a) (hb : '_' ∉ b) (h : a ++ '_' :: r = b ++ '_' :: s) : a = b ∧ r = s := by
  obtain ⟨hab, hrs⟩ := append_inj_of_all (P := (· != '_')) (by simpa using fun c hc => ne_of_mem_of_not_mem hc ha)
    (by simpa using fun c hc => ne_of_mem_of_not_mem hc hb) rfl rfl h
  exact ⟨hab, (List.cons.inj hrs).2⟩

lemma toString_append_inj {m n : Int} (hr : r.head?.any isNumeral = false) (hs : s.head?.any isNumeral = false)
    (h : (toString m).toList ++ r = (toString n).toList ++ s) : m = n ∧ r = s := by
  obtain ⟨hmn, hrs⟩ := append_inj_of_all (fun _ hc => isNumeral_of_mem_toString hc)
    (fun _ hc => isNumeral_of_mem_toString hc) hr hs h
  exact ⟨Int.repr_injective (String.toList_injective hmn), hrs⟩

end TensorToolchain.Text
