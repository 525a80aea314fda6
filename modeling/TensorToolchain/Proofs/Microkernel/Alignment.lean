import TensorToolchain.Microkernel.DotProduct
import TensorToolchain.Proofs.Faults
import TensorToolchain.Proofs.Text.Reading

/-!
# A machine for kernels and the alignment of its loads

The body of a dot product is a list of statements on words of 32 bits. The machine keeps the
memories of the tensor, the kernel and the output in halfwords, a word being two neighbouring
halfwords with the low one first, and the values of the local variables. A statement that reads a
variable that is not declared, or declares one twice, cannot be executed.

Multiplications take signed halves of words and are exact; sums wrap around at 32 bits.
-/

namespace TensorToolchain.Microkernel

open List Half

variable {α : Type}

/-- What the statements of a body read and write. -/
structure Machine where
  (tensor kernel output : Int → BitVec 16)
  (bias scale : BitVec 32)
  values : String → Option (BitVec 32)

/-- The word at a position of a memory of halfwords. -/
def wordAt (memory : Int → BitVec 16) (position : Int) : BitVec 32 := memory (2 * position + 1) ++ memory (2 * position)

def Half.of : Half → BitVec 32 → BitVec 16
  | bottom, w => w.extractLsb' 0 16
  | top, w => w.extractLsb' 16 16

/-- The sum of the products that an instruction adds, if it is a known one. -/
def Opcode.products? : Opcode → BitVec 32 → BitVec 32 → Option Int
  | single t k, a, b => some ((t.of a).toInt * (k.of b).toInt)
  | dual, a, b => some ((bottom.of a).toInt * (bottom.of b).toInt + (top.of a).toInt * (top.of b).toInt)
  | crossed, a, b => some ((bottom.of a).toInt * (top.of b).toInt + (top.of a).toInt * (bottom.of b).toInt)
  | other _, _, _ => none

/-- What an instruction adds under given values of the variables. -/
def Mac.products? (values : String → Option (BitVec 32)) (m : Mac) : Option Int := do
  let a ← values m.tensor
  let b ← values m.kernel
  m.opcode.products? a b

namespace Machine

def memory (m : Machine) : Source → Int → BitVec 16
  | .tensor => m.tensor
  | .kernel => m.kernel

def assign (m : Machine) (name : String) (value : BitVec 32) : Machine :=
  { m with values := Function.update m.values name (some value) }

@[simp] lemma values_assign (m : Machine) (name : String) (value : BitVec 32) :
    (m.assign name value).values = Function.update m.values name (some value) := rfl

def declare (m : Machine) (name : String) (value : BitVec 32) : Option Machine :=
  if m.values name = none then some (m.assign name value) else none

def store (m : Machine) (position : Int) (value : BitVec 16) : Machine :=
  { m with output := Function.update m.output position value }

end Machine

def Statement.exec (m : Machine) : Statement → Option Machine
  | declareSums names => names.foldlM (fun m name => m.declare name m.bias) m
  | load source name index => m.declare name (wordAt (m.memory source) index)
  | accumulate sum mac => do
    let value ← m.values sum
    let products ← mac.products? m.values
    return m.assign sum (value + BitVec.ofInt 32 products)
  | loadScale => m.declare "scale_val" m.scale
  | rescale output shift => do
    let sum ← m.values (sumName output)
    let scale ← m.values "scale_val"
    guard (1 ≤ shift ∧ shift ≤ 64)
    let product := sum.signExtend 64 * scale.signExtend 64
    m.declare (resultName output) ((product.sshiftRight (shift - 1).toNat).setWidth 32)
  | halve output => do
    let value ← m.values (resultName output)
    return m.assign (resultName output) ((value + 1).sshiftRight 1)
  | saturate output zeroPoint => do
    let value ← m.values (resultName output)
    let shifted := (value + BitVec.ofInt 32 zeroPoint).toInt
    return m.assign (resultName output) (BitVec.ofInt 32 (max (-128) (min 127 shifted)))
  | pack word low high => do
    let low ← m.values (resultName low)
    let high ← m.values (resultName high)
    m.declare (packedName word) (low + high <<< 16)
  | storeHalf position output => do
    let value ← m.values (resultName output)
    return m.store position (value.setWidth 16)
  | storeWord position word => do
    let value ← m.values (packedName word)
    return (m.store (2 * position) (bottom.of value)).store (2 * position + 1) (top.of value)

def run (body : List Statement) (m : Machine) : Option Machine := body.foldlM Statement.exec m

@[simp] lemma run_nil (m : Machine) : run [] m = some m := rfl

lemma run_cons (s : Statement) (body : List Statement) (m : Machine) :
    run (s :: body) m = (s.exec m).bind (run body) := rfl

lemma run_append (first second : List Statement) (m : Machine) :
    run (first ++ second) m = (run first m).bind (run second) := by
  simp only [run, foldlM_append]
  rfl

@[simp] lemma Half.bottom_of_wordAt (memory : Int → BitVec 16) (i : Int) :
    bottom.of (wordAt memory i) = memory (2 * i) :=
  BitVec.extractLsb'_append_eq_right

@[simp] lemma Half.top_of_wordAt (memory : Int → BitVec 16) (i : Int) : top.of (wordAt memory i) = memory (2 * i + 1) :=
  BitVec.extractLsb'_append_eq_left

/-- Parts that each give one variable of their own a value change exactly these variables. What a
part does may depend on its own variable and on those that no part changes. -/
lemma foldlM_assigns (exec : Machine → Statement → Option Machine) (part : α → List Statement) (name : α → String)
    (value : α → BitVec 32) (items : List α) (m : Machine) (hns : (items.map name).Nodup)
    (hex : ∀ a ∈ items, ∀ values, (∀ n, (∀ b ∈ items, n ≠ name b) ∨ n = name a → values n = m.values n) →
      (part a).foldlM exec { m with values } =
        some (Machine.assign { m with values } (name a) (value a))) :
    ∃ values, (items.flatMap part).foldlM exec m = some { m with values } ∧
      (∀ a ∈ items, values (name a) = some (value a)) ∧ ∀ n, (∀ a ∈ items, n ≠ name a) → values n = m.values n := by
  induction items generalizing m with
  | nil => exact ⟨m.values, rfl, by simp, fun _ _ => rfl⟩
  | cons a items ih =>
    rw [map_cons, nodup_cons] at hns
    -- The first part changes no variable that a later part may depend on.
    obtain ⟨values, hrun, hvs, hkp⟩ := ih (m.assign (name a) (value a)) hns.2 fun b hb values hsm =>
      hex b (mem_cons_of_mem a hb) values fun n hn => by
        have hne : n ≠ name a := by
          rintro rfl
          exact hn.elim (· a mem_cons_self rfl) fun h => hns.1 (h ▸ mem_map_of_mem hb)
        rw [hsm n (hn.imp_left fun h c hc => h c (mem_cons_of_mem a hc)), Machine.values_assign,
          Function.update_of_ne hne]
    refine ⟨values, ?_, ?_, ?_⟩
    · rw [flatMap_cons, foldlM_append, hex a mem_cons_self m.values fun _ _ => rfl]
      exact hrun
    · intro b hb
      rcases mem_cons.mp hb with rfl | hb
      · rw [hkp (name b) fun c hc h => hns.1 (h ▸ mem_map_of_mem hc), Machine.values_assign, Function.update_self]
      · exact hvs b hb
    · intro n hn
      rw [forall_mem_cons] at hn
      rw [hkp n hn.2, Machine.values_assign, Function.update_of_ne hn.1]

/-- Statements that declare different names that are not declared yet declare exactly these names.
The value of a name may depend on the variables that none of the statements declares. -/
lemma run_declarations (statement : α → Statement) (name : α → String) (value : α → BitVec 32)
    (items : List α) (m : Machine) (hns : (items.map name).Nodup) (hfr : ∀ a ∈ items, m.values (name a) = none)
    (hex : ∀ a ∈ items, ∀ values, (∀ n, (∀ b ∈ items, n ≠ name b) → values n = m.values n) →
      (statement a).exec { m with values } = Machine.declare { m with values } (name a) (value a)) :
    ∃ values, run (items.map statement) m = some { m with values } ∧
      (∀ a ∈ items, values (name a) = some (value a)) ∧ ∀ n, (∀ a ∈ items, n ≠ name a) → values n = m.values n := by
  rw [← flatMap_pure_eq_map]
  refine foldlM_assigns _ _ name value items m hns fun a ha values hvs => ?_
  have hst := hex a ha values fun n hn => hvs n (.inl hn)
  rw [Machine.declare, if_pos ((hvs _ (.inr rfl)).trans (hfr a ha))] at hst
  simp [hst]

lemma run_loads (source : Source) (name : α → String) (index : α → Int) (words : List α)
    (m : Machine) (hns : (words.map name).Nodup) (hfr : ∀ w ∈ words, m.values (name w) = none) :
    ∃ values, run (words.map fun w => .load source (name w) (index w)) m = some { m with values } ∧
      (∀ w ∈ words, values (name w) = some (wordAt (m.memory source) (index w))) ∧
      ∀ n, (∀ w ∈ words, n ≠ name w) → values n = m.values n :=
  run_declarations _ name (fun w => wordAt _ _) words m hns hfr fun w _ values _ => by cases source <;> rfl

/-! ### Sums of products -/

/-- The sum of what some instructions add, an unreadable one adding nothing. -/
def totalProducts (values : String → Option (BitVec 32)) (macs : List Mac) : Int :=
  (macs.map fun mac => (mac.products? values).getD 0).sum

@[simp] lemma totalProducts_nil (values : String → Option (BitVec 32)) : totalProducts values [] = 0 := rfl

@[simp] lemma totalProducts_cons (values : String → Option (BitVec 32)) (mac : Mac) (macs : List Mac) :
    totalProducts values (mac :: macs) = (mac.products? values).getD 0 + totalProducts values macs := by
  simp [totalProducts]

lemma totalProducts_congr {values values' : String → Option (BitVec 32)} {macs : List Mac}
    (h : ∀ mac ∈ macs, mac.products? values = mac.products? values') :
    totalProducts values macs = totalProducts values' macs := by
  rw [totalProducts, totalProducts, map_congr_left fun mac hmac => by rw [h mac hmac]]

lemma Mac.products?_assign {mac : Mac} {sum : String} (m : Machine) (value : BitVec 32)
    (h : mac.tensor ≠ sum ∧ mac.kernel ≠ sum) : mac.products? (m.assign sum value).values = mac.products? m.values := by
  simp [products?, Machine.assign, h.1, h.2]

lemma run_accumulates (sum : String) (macs : List Mac) (m : Machine) (value : BitVec 32)
    (hv : m.values sum = some value) (hrd : ∀ mac ∈ macs, (mac.products? m.values).isSome)
    (hsum : ∀ mac ∈ macs, mac.tensor ≠ sum ∧ mac.kernel ≠ sum) : run (macs.map (.accumulate sum)) m =
      some (m.assign sum (value + BitVec.ofInt 32 (totalProducts m.values macs))) := by
  induction macs generalizing m value with
  | nil =>
    have hsm : Function.update m.values sum (some value) = m.values := by rw [← hv, Function.update_eq_self]
    simp [Machine.assign, hsm]
  | cons mac macs ih =>
    obtain ⟨p, hp⟩ := Option.isSome_iff_exists.mp (hrd mac mem_cons_self)
    let next := m.assign sum (value + .ofInt 32 p)
    have hex : (Statement.accumulate sum mac).exec m = some next := by simp [Statement.exec, hv, hp, next]
    -- The sum is no operand, so the later instructions read the same words.
    have hsm : ∀ other ∈ macs, other.products? next.values = other.products? m.values :=
      fun other hot => Mac.products?_assign m _ (hsum other (mem_cons_of_mem mac hot))
    have hr := ih next (value + .ofInt 32 p) (by simp [next, Machine.assign]) (fun other hot => by
        rw [hsm other hot]
        exact hrd other (mem_cons_of_mem mac hot))
      fun other hot => hsum other (mem_cons_of_mem mac hot)
    rw [map_cons, run_cons, hex, Option.bind_some, hr, totalProducts_congr hsm,
      totalProducts_cons, hp, BitVec.ofInt_add, ← add_assoc]
    simp [next, Machine.assign]

/-! ### Names of variables

A kernel body names a loaded word after the two halfwords that it holds. Coordinates are written in
hexadecimal digits and separated by underscores, which are no digits, so that a name can be read
back. Names of different kinds start differently.
-/

open Text

variable {n : Nat} {i j : Int} {a b c d : Halfword} {r s : List Char}

/-! ### Hexadecimal digits -/

def hexDigitValue (c : Char) : Nat := if c.isDigit then c.toNat - 48 else c.toNat - 87

def hexValue (digits : List Char) : Nat := digits.foldl (fun n c => 16 * n + hexDigitValue c) 0

lemma hexDigitValue_digitChar (h : n < 16) : hexDigitValue n.digitChar = n := by
  have h' : ∀ k : Fin 16, hexDigitValue k.val.digitChar = k.val := by decide
  exact h' ⟨n, h⟩

lemma digitChar_ne_of_lt (h : n < 16) : n.digitChar ≠ '-' ∧ n.digitChar ≠ '_' := by
  have h' : ∀ k : Fin 16, k.val.digitChar ≠ '-' ∧ k.val.digitChar ≠ '_' := by decide
  exact h' ⟨n, h⟩

lemma hexValue_toDigits_of_le {b : Nat} (hb : 1 < b) (hb' : b ≤ 16) (n : Nat) : hexValue (Nat.toDigits b n) =
      if n < b then n else 16 * hexValue (Nat.toDigits b (n / b)) + n % b := by
  rw [Nat.toDigits_eq_if hb]
  split_ifs with h
  · simp [hexValue, hexDigitValue_digitChar (h.trans_le hb')]
  · have hlast : n % b < 16 := (Nat.mod_lt n (by omega)).trans_le hb'
    simp only [hexValue, foldl_append, foldl_cons, foldl_nil, hexDigitValue_digitChar hlast]

lemma hexValue_toDigits (n : Nat) : hexValue (Nat.toDigits 16 n) = n := by
  induction n using Nat.strong_induction_on with
  | _ n ih =>
    rw [hexValue_toDigits_of_le (by decide) le_rfl]
    split_ifs with h
    · rfl
    · rw [ih (n / 16) (by omega)]
      omega

lemma ne_of_mem_toDigits {c : Char} (hc : c ∈ Nat.toDigits 16 n) : c ≠ '-' ∧ c ≠ '_' := by
  induction n using Nat.strong_induction_on with
  | _ n ih =>
    rw [Nat.toDigits_eq_if (by decide)] at hc
    split_ifs at hc with h
    · rw [mem_singleton.mp hc]
      exact digitChar_ne_of_lt h
    · rcases mem_append.mp hc with hc | hc
      · exact ih (n / 16) (by omega) hc
      · rw [mem_singleton.mp hc]
        exact digitChar_ne_of_lt (Nat.mod_lt n (by decide))

lemma toList_hexText (n : Int) : (hexText n).toList = (if n < 0 then ['-'] else []) ++ Nat.toDigits 16 n.natAbs := by
  simp only [hexText]
  split_ifs <;> simp

lemma toList_hexPair (n : Int) :
    (hexPair n).toList = (hexText n).toList ∨ (hexPair n).toList = '0' :: (hexText n).toList := by
  simp only [hexPair]
  split_ifs
  · simp
  · exact .inl rfl

/-- The number that the digits of a coordinate stand for. -/
def coordinateValue : List Char → Int
  | '-' :: digits => -hexValue digits
  | digits => hexValue digits

lemma coordinateValue_of_not_sign {digits : List Char} (h : '-' ∉ digits) :
    coordinateValue digits = hexValue digits := by
  unfold coordinateValue
  split
  · simp at h
  · rfl

lemma coordinateValue_hexPair (n : Int) : coordinateValue (hexPair n).toList = n := by
  have hsg : '-' ∉ Nat.toDigits 16 n.natAbs := fun h => (ne_of_mem_toDigits h).1 rfl
  by_cases hn : n < 0
  · -- A negative number has a sign and a digit, so that it is never filled up.
    have htx : (hexText n).toList = '-' :: Nat.toDigits 16 n.natAbs := by simp [toList_hexText, hn]
    have hlen : ¬ (hexText n).length < 2 := by
      have := Nat.length_toDigits_pos (b := 16) (n := n.natAbs)
      rw [← String.length_toList, htx, length_cons]
      omega
    simp only [hexPair, hlen, if_false, htx, coordinateValue, hexValue_toDigits]
    omega
  · have htx : (hexText n).toList = Nat.toDigits 16 n.natAbs := by
      simp [toList_hexText, hn]
    have hv := hexValue_toDigits n.natAbs
    rcases toList_hexPair n with h | h
    · rw [h, htx, coordinateValue_of_not_sign hsg]
      omega
    · rw [h, htx, coordinateValue_of_not_sign (by simp [hsg])]
      rw [hexValue] at hv
      have hz : hexDigitValue '0' = 0 := by decide
      simp only [hexValue, foldl_cons, hz, hv]
      omega

lemma hexPair_injective {m n : Int} (h : (hexPair m).toList = (hexPair n).toList) : m = n := by
  rw [← coordinateValue_hexPair m, h, coordinateValue_hexPair]

lemma underscore_notMem_hexPair (n : Int) : '_' ∉ (hexPair n).toList := by
  have htx : '_' ∉ (hexText n).toList := by
    rw [toList_hexText, mem_append, not_or]
    exact ⟨by split_ifs <;> simp, fun h => (ne_of_mem_toDigits h).2 rfl⟩
  rcases toList_hexPair n with h | h
  · rwa [h]
  · rw [h, mem_cons, not_or]
    exact ⟨by decide, htx⟩

/-! ### Names of words -/

lemma toList_alias_some (y x : Int) : (Halfword.alias (some (y, x))).toList =
      'y' :: ((hexPair y).toList ++ '_' :: 'x' :: (hexPair x).toList) := by
  simp [Halfword.alias]

lemma toList_alias_none : (Halfword.alias none).toList = "unknown".toList := rfl

/-- The name of a halfword can be read off a longer text that goes on with an underscore. -/
lemma alias_append_underscore_inj (h : a.alias.toList ++ '_' :: r = b.alias.toList ++ '_' :: s) : a = b ∧ r = s := by
  rcases a with _ | ⟨y, x⟩ <;> rcases b with _ | ⟨y', x'⟩
  · simpa using h
  · simp [toList_alias_none, toList_alias_some] at h
  · simp [toList_alias_none, toList_alias_some] at h
  · simp only [toList_alias_some, cons_append, append_assoc, cons.injEq, true_and] at h
    obtain ⟨hy, h⟩ := append_underscore_inj (underscore_notMem_hexPair y) (underscore_notMem_hexPair y') h
    simp only [cons.injEq, true_and] at h
    obtain ⟨hx, h⟩ := append_underscore_inj (underscore_notMem_hexPair x) (underscore_notMem_hexPair x') h
    exact ⟨by rw [hexPair_injective hy, hexPair_injective hx], h⟩

lemma wordName_injective (h : wordName a b = wordName c d) : a = c ∧ b = d := by
  have h' : a.alias.toList ++ '_' :: '_' :: b.alias.toList = c.alias.toList ++ '_' :: '_' :: d.alias.toList := by
    have := congrArg String.toList h
    simpa [wordName] using this
  obtain ⟨hac, hr⟩ := alias_append_underscore_inj h'
  have hbd : b.alias.toList ++ ['_'] = d.alias.toList ++ ['_'] := by rw [(cons.inj hr).2]
  exact ⟨hac, (alias_append_underscore_inj hbd).1⟩

lemma variable_injective {s : Source} (h : s.variable a b = s.variable c d) : a = c ∧ b = d :=
  wordName_injective (by simpa [Source.variable, append_assoc] using h)

/-! ### First characters -/

lemma head?_variable (s : Source) (a b : Halfword) : (s.variable a b).toList.head? = s.name.toList.head? := by
  cases s <;> simp [Source.variable, Source.name]

lemma tensorVariable_ne_kernelVariable (a b c d : Halfword) :
    Source.tensor.variable a b ≠ Source.kernel.variable c d := by
  intro h
  have := congrArg (·.toList.head?) h
  simp [head?_variable, Source.name] at this

lemma variable_ne_sumName (s : Source) (a b : Halfword) (i : Int) : s.variable a b ≠ sumName i := by
  intro h
  have := congrArg (·.toList.head?) h
  cases s <;> simp [head?_variable, sumName, Source.name] at this

lemma packedName_ne_resultName (i j : Int) : packedName i ≠ resultName j := by
  intro h
  have := congrArg (·.toList.head?) h
  simp [packedName, resultName] at this

lemma sumName_injective (h : sumName i = sumName j) : i = j := Int.repr_injective (by simpa [sumName] using h)

lemma resultName_injective (h : resultName i = resultName j) : i = j :=
  Int.repr_injective (by simpa [resultName] using h)

lemma packedName_injective (h : packedName i = packedName j) : i = j :=
  Int.repr_injective (by simpa [packedName] using h)

variable {n y x : Int} {k : Nat} {front back : Bool} {hs : List Halfword}
  {place : Int → Int → Int} {cells : List (Int × Int)} {w : Halfword × Halfword}

/-! ### Numbers below a bound -/

@[simp] lemma mem_below : i ∈ below n ↔ 0 ≤ i ∧ i < n := by
  simp only [below, mem_map, mem_range]
  constructor
  · rintro ⟨k, hk, rfl⟩
    exact ⟨Int.natCast_nonneg k, by simp only [Int.ofNat_eq_natCast]; omega⟩
  · rintro ⟨h0, hn⟩
    exact ⟨i.toNat, by omega, by simp only [Int.ofNat_eq_natCast]; omega⟩

@[simp] lemma length_below (n : Int) : (below n).length = n.toNat := by simp [below]

lemma below_nodup (n : Int) : (below n).Nodup := nodup_range.map fun _ _ h => Int.ofNat.inj h

lemma getElem?_below_eq_some {j : Nat} (h : (below n)[j]? = some i) : i = j := by
  simp only [below, getElem?_map, Option.map_eq_some_iff] at h
  obtain ⟨k, hk, rfl⟩ := h
  rw [getElem?_range (by simpa using (List.getElem?_eq_some_iff.mp hk).1)] at hk
  rw [← Option.some.inj hk]
  rfl

/-! ### Words of a list

If a list of halfwords starts at a word and its values stand in it as in memory, the words that it
makes up are words of that memory. They have different names if no value occurs twice and each holds
a value.
-/

/-- The part of a pair that stands in a half. -/
def Half.among {α : Type} : Half → α × α → α
  | bottom, w => w.1
  | top, w => w.2

/-- How far a half stands after the start of its word. -/
def Half.shift : Half → Int
  | bottom => 0
  | top => 1

lemma Half.of_wordAt (half : Half) (memory : Int → BitVec 16) (i : Int) :
    half.of (wordAt memory i) = memory (2 * i + half.shift) := by
  cases half <;> simp [shift]

lemma length_wordsOf (hs : List Halfword) : (wordsOf hs).length = hs.length / 2 := by
  fun_induction wordsOf hs with
  | case1 low high rest ih =>
    simp only [length_cons, ih]
    omega
  | case2 hs hsh =>
    rcases hs with _ | ⟨a, _ | ⟨b, rest⟩⟩
    · rfl
    · simp
    · exact absurd rfl (hsh a b rest)

lemma getElem?_wordsOf (h : (wordsOf hs)[k]? = some w) (half : Half) :
    hs[2 * k + half.shift.toNat]? = some (half.among w) := by
  fun_induction wordsOf hs generalizing k with
  | case1 low high rest ih =>
    cases k with
    | zero =>
      obtain rfl : (low, high) = w := by simpa using h
      cases half <;> rfl
    | succ k =>
      rw [show 2 * (k + 1) + half.shift.toNat = 2 * k + half.shift.toNat + 1 + 1 by omega]
      simpa using ih (by simpa using h)
  | case2 => simp at h

lemma wordsOf_append {first second : List Halfword} (h : first.length % 2 = 0) :
    wordsOf (first ++ second) = wordsOf first ++ wordsOf second := by
  fun_induction wordsOf first with
  | case1 low high rest ih =>
    have hr : rest.length % 2 = 0 := by
      simp only [length_cons] at h
      omega
    simp [wordsOf, ih hr]
  | case2 first hsh =>
    rcases first with _ | ⟨a, _ | ⟨b, rest⟩⟩
    · rfl
    · simp at h
    · exact absurd rfl (hsh a b rest)

lemma wordsOf_flatMap {f : α → List Halfword} {l : List α} (h : ∀ a ∈ l, (f a).length % 2 = 0) :
    wordsOf (l.flatMap f) = l.flatMap fun a => wordsOf (f a) := by
  induction l with
  | nil => rfl
  | cons a l ih =>
    rw [flatMap_cons, flatMap_cons, wordsOf_append (h a mem_cons_self), ih fun b hb => h b (mem_cons_of_mem a hb)]

lemma wordOf_of_mem (hev : hs.length % 2 = 0) (h : some (y, x) ∈ hs) : ∃ w ∈ wordsOf hs, ∃ half : Half,
      wordOf hs y x = .ok (wordName w.1 w.2, half) ∧ half.among w = some (y, x) := by
  have hi : hs.idxOf (some (y, x)) < hs.length := idxOf_lt_length_iff.mpr h
  have hat : hs[hs.idxOf (some (y, x))]? = some (some (y, x)) := by rw [getElem?_eq_getElem hi, getElem_idxOf]
  generalize hi' : hs.idxOf _ = i at hi hat
  -- The word that holds position `i` is word `i / 2`.
  have hk : i / 2 < (wordsOf hs).length := by
    rw [length_wordsOf]
    omega
  have hw : (wordsOf hs)[i / 2]? = some (wordsOf hs)[i / 2] := getElem?_eq_getElem hk
  have hbt := getElem?_wordsOf hw .bottom
  have htop := getElem?_wordsOf hw .top
  simp only [shift, among, Int.toNat_zero, Int.toNat_one, add_zero] at hbt htop
  refine ⟨(wordsOf hs)[i / 2], getElem_mem hk, ?_⟩
  simp only [wordOf, hi', hi, if_true]
  by_cases hpr : i % 2 = 0
  · rw [show 2 * (i / 2) = i by omega] at hbt htop
    refine ⟨.bottom, ?_, Option.some.inj (hbt.symm.trans hat)⟩
    have hnx : i + 1 < hs.length := by omega
    simp only [hpr, hnx, getD_eq_getElem?_getD, hbt, htop, Option.getD_some, beq_self_eq_true, if_true]
  · rw [show 2 * (i / 2) = i - 1 by omega] at hbt
    rw [show 2 * (i / 2) + 1 = i by omega] at htop
    refine ⟨.top, ?_, Option.some.inj (htop.symm.trans hat)⟩
    simp [hpr, getD_eq_getElem?_getD, hbt, htop]

/-! ### Places in memory -/

/-- The values of a word stand in memory at the halves of the word at a position. -/
def Placed (place : Int → Int → Int) (w : Halfword × Halfword) (position : Int) : Prop :=
  ∀ (half : Half) (y x : Int), half.among w = some (y, x) → place y x = 2 * position + half.shift

/-- The values of a list stand in memory as they stand in the list, which starts at a position. -/
def Aligned (place : Int → Int → Int) (start : Int) (hs : List Halfword) : Prop :=
  ∀ (j : Nat) (y x : Int), hs[j]? = some (some (y, x)) → place y x = start + j

/-- A list that starts at a word is made up of words of the memory. -/
lemma Aligned.placed {first : Int} (h : Aligned place (2 * first) hs)
    (hw : (wordsOf hs)[k]? = some w) : Placed place w (first + k) := by
  intro half y x hhl
  rw [h _ y x (hhl ▸ getElem?_wordsOf hw half)]
  cases half <;> simp [shift] <;> ring

lemma Placed.position_eq {position : Int} (h : Placed place w position)
    (hyx : w.2.or w.1 = some (y, x)) : (place y x).fdiv 2 = position := by
  rw [Int.fdiv_eq_ediv_of_nonneg _ (by decide)]
  rcases hhg : w.2 with _ | p
  · have := h .bottom y x (by simpa [among, hhg] using hyx)
    simp only [shift] at this
    omega
  · have := h .top y x (by simpa [among, hhg] using hyx)
    simp only [shift] at this
    omega

/-! ### Rows filled up to whole words -/

/-- Values with a halfword that is not used in front of them or behind them. -/
def padded (front : Bool) (cells : List (Int × Int)) (back : Bool) : List Halfword :=
  (if front then [none] else []) ++ cells.map some ++ (if back then [none] else [])

@[simp] lemma length_padded (front back : Bool) (cells : List (Int × Int)) :
    (padded front cells back).length = front.toNat + cells.length + back.toNat := by
  cases front <;> cases back <;> simp [padded] <;> omega

@[simp] lemma some_mem_padded {c : Int × Int} : some c ∈ padded front cells back ↔ c ∈ cells := by
  cases front <;> cases back <;> simp [padded]

@[simp] lemma filterMap_padded (front back : Bool) (cells : List (Int × Int)) :
    (padded front cells back).filterMap id = cells := by
  cases front <;> cases back <;> simp [padded, filterMap_map]

lemma aligned_padded {start : Int}
    (h : ∀ (j : Nat) (y x : Int), cells[j]? = some (y, x) → place y x = start + front.toNat + j) :
    Aligned place start (padded front cells back) := by
  have hcl : ∀ (j : Nat) (y x : Int), (cells.map some ++ if back then [none] else [])[j]? = some (some (y, x)) →
      place y x = start + front.toNat + j := by
    intro j y x hj
    rw [getElem?_append] at hj
    split_ifs at hj
    · exact h j y x (by simpa using hj)
    all_goals simp [getElem?_singleton] at hj
  intro j y x hj
  rw [padded] at hj
  cases front with
  | false => simpa using hcl j y x hj
  | true =>
    cases j with
    | zero => simp at hj
    | succ j =>
      rw [hcl j y x (by simpa using hj)]
      simp
      ring

lemma low_ne_none : (cells : List (Int × Int)) →
      w ∈ wordsOf (cells.map some ++ if back then [none] else []) → w.1 ≠ none
  | [], h => by cases back <;> simp [wordsOf] at h
  | [c], h => by
      cases back with
      | false => simp [wordsOf] at h
      | true =>
        obtain rfl : w = (some c, none) := by simpa [wordsOf] using h
        simp
  | c :: d :: cells, h => by
      rcases mem_cons.mp (by simpa [wordsOf] using h) with rfl | h
      · simp
      · exact low_ne_none cells h

lemma word_of_padded (hcl : cells ≠ []) (hw : w ∈ wordsOf (padded front cells back)) : w.1 ≠ none ∨ w.2 ≠ none := by
  rw [padded] at hw
  cases front with
  | false => exact .inl (low_ne_none cells hw)
  | true =>
    obtain ⟨c, cells, rfl⟩ := exists_cons_of_ne_nil hcl
    rcases mem_cons.mp (by simpa [wordsOf] using hw) with rfl | hw
    · simp
    · exact .inl (low_ne_none cells hw)

lemma mem_of_mem_wordsOf (hw : w ∈ wordsOf hs) : w.1 ∈ hs ∧ w.2 ∈ hs := by
  obtain ⟨k, hk⟩ := mem_iff_getElem?.mp hw
  exact ⟨mem_of_getElem? (getElem?_wordsOf hk .bottom), mem_of_getElem? (getElem?_wordsOf hk .top)⟩

/-- The words of a list in which no value occurs twice have different names if each holds a
value. -/
lemma nodup_words (source : Source) (hvs : (hs.filterMap id).Nodup)
    (hwr : ∀ w ∈ wordsOf hs, w.1 ≠ none ∨ w.2 ≠ none) : ((wordsOf hs).map fun w => source.variable w.1 w.2).Nodup := by
  fun_induction wordsOf hs with
  | case1 low high rest ih =>
    have hr : (rest.filterMap id).Nodup := hvs.sublist (((sublist_cons_self high rest).cons low).filterMap id)
    rw [map_cons, nodup_cons]
    refine ⟨?_, ih hr fun w hw => hwr w (mem_cons_of_mem _ hw)⟩
    intro hmem
    obtain ⟨w, hw, hnm⟩ := mem_map.mp hmem
    obtain ⟨h1, h2⟩ := variable_injective hnm
    obtain ⟨hlow, hhg⟩ := mem_of_mem_wordsOf hw
    rw [h1] at hlow
    rw [h2] at hhg
    -- The value that the first word holds would stand again in the rest of the list.
    rcases hwr _ mem_cons_self with h | h
    · obtain ⟨c, rfl⟩ := Option.ne_none_iff_exists'.mp h
      rw [filterMap_cons_some (f := id) rfl, nodup_cons] at hvs
      exact hvs.1 (mem_filterMap.mpr ⟨some c, mem_cons_of_mem _ hlow, rfl⟩)
    · obtain ⟨c, rfl⟩ := Option.ne_none_iff_exists'.mp h
      have hvs' := hvs.sublist ((sublist_cons_self low _).filterMap id)
      rw [filterMap_cons_some (f := id) rfl, nodup_cons] at hvs'
      exact hvs'.1 (mem_filterMap.mpr ⟨some c, hhg, rfl⟩)
  | case2 => exact nodup_nil

end TensorToolchain.Microkernel
