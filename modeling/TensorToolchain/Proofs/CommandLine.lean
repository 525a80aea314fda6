import TensorToolchain.CommandLine.ConfigFile
import TensorToolchain.CommandLine.ModelInput
import TensorToolchain.CommandLine.Target
import TensorToolchain.Proofs.Faults
import TensorToolchain.Proofs.Keyed

/-!
# Targets and inputs

A list of targets is read back from its text. Every token ends where the text goes on with a blank,
or with a comma and a blank; no value goes on there, quoted or not, since a comma within a value
without quotes stands between two of its characters.
-/

namespace TensorToolchain.CommandLine

open List Text

variable {s rest : List Char} {toks : List (List Char)} {n : Nat} {b : Bool} {c : Char}

/-- A text that a token may end before. -/
def Stops (text : List Char) : Prop := text = [] ∨ (∃ rest, text = ' ' :: rest) ∨ ∃ rest, text = ',' :: ' ' :: rest

/-! ### Lengths of values -/

/-- The value at the start of a text has some length, however much is looked at. -/
def ReadsValue (b : Bool) (text : List Char) (n : Nat) : Prop :=
  ∀ fuel, text.length ≤ fuel → valueLength fuel b text = n

namespace ReadsValue

lemma stop (h : Stops s) : ReadsValue b s 0 := by
  rintro (_ | fuel) -
  · rfl
  · rcases h with rfl | ⟨rest, rfl⟩ | ⟨rest, rfl⟩
    · rfl
    · cases b <;> rfl
    · cases b <;> rfl

lemma char (hc : isValueChar c) (h : ReadsValue true rest n) : ReadsValue b (c :: rest) (n + 1) := by
  rintro (_ | fuel) hfl
  · simp at hfl
  · rw [valueLength, if_pos hc, h fuel (by simpa using hfl), add_comm]

lemma word (hs : ∀ c ∈ s, isValueChar c) (h : ReadsValue true rest n) : ReadsValue true (s ++ rest) (n + s.length) := by
  induction s with
  | nil => exact h
  | cons c s ih => exact char (hs c mem_cons_self) (ih fun d hd => hs d (mem_cons_of_mem c hd))

lemma comma (hc : isValueChar c) (h : ReadsValue false (c :: rest) n) : ReadsValue true (',' :: c :: rest) (n + 1) := by
  rintro (_ | fuel) hfl
  · simp at hfl
  · have hv := h (fuel + 1) (by simp at hfl ⊢; omega)
    rw [valueLength, if_pos hc] at hv
    rw [valueLength, if_neg (by decide +kernel), if_pos (by simpa using hc), drop_one, tail_cons]
    omega

lemma quoted (hs : ∀ c ∈ s, isQuotedChar c) (hne : s ≠ []) (h : ReadsValue false rest n) :
    ReadsValue false ('"' :: (s ++ '"' :: rest)) (n + (s.length + 2)) := by
  have hin : (s ++ '"' :: rest).takeWhile isQuotedChar = s := by
    rw [takeWhile_append_of_pos hs, takeWhile_cons_of_neg (by decide +kernel), append_nil]
  have hlen : quotedLength ('"' :: (s ++ '"' :: rest)) = s.length + 2 := by simp [quotedLength, hin, isQuote, hne]
  rintro (_ | fuel) hfl
  · simp at hfl
  · rw [valueLength, if_neg (by decide +kernel), if_neg (by simp), hlen]
    simp only [length_cons, length_append] at hfl
    have hdr : (s ++ '"' :: rest).drop (s.length + 1) = rest := by simp
    dsimp only
    rw [hdr, h fuel (by omega)]
    omega

end ReadsValue

/-! ### Written targets -/

/-- The value of an option, as it is written: pieces with commas between them, or a text in
quotes. -/
inductive WrittenValue where
  | bare (pieces : List (List Char))
  | quoted (text : List Char)

namespace WrittenValue

def text : WrittenValue → List Char
  | bare pieces => joinWith [','] pieces
  | quoted text => text

def written : WrittenValue → List Char
  | bare pieces => joinWith [','] pieces
  | quoted text => '"' :: (text ++ ['"'])

def Valid : WrittenValue → Prop
  | bare pieces => pieces ≠ [] ∧ ∀ p ∈ pieces, p ≠ [] ∧ p.all isValueChar = true
  | quoted text => text ≠ [] ∧ text.all isQuotedChar = true

instance : DecidablePred Valid
  | bare _ | quoted _ => inferInstanceAs (Decidable (_ ∧ _))

lemma exists_readsValue_bare {pieces : List (List Char)} (h : (bare pieces).Valid) (hr : Stops rest) :
    ∃ c s, joinWith [','] pieces ++ rest = c :: s ∧ isValueChar c ∧
      ReadsValue false (c :: s) (joinWith [','] pieces).length := by
  obtain ⟨hne, hpc⟩ := h
  induction pieces with
  | nil => exact absurd rfl hne
  | cons p ps ih =>
    obtain ⟨hp, hch⟩ := hpc p mem_cons_self
    obtain ⟨c, cs, rfl⟩ := exists_cons_of_ne_nil hp
    rw [all_eq_true, forall_mem_cons] at hch
    cases ps with
    | nil =>
      have := ((ReadsValue.stop hr).word hch.2).char (b := false) hch.1
      exact ⟨c, cs ++ rest, rfl, hch.1, by simpa [joinWith] using this⟩
    | cons q qs =>
      obtain ⟨d, s, hs, hd, hv⟩ := ih (cons_ne_nil q qs) fun p hp => hpc p (mem_cons_of_mem _ hp)
      refine ⟨c, cs ++ ',' :: d :: s, by simp [joinWith, ← hs], hch.1, ?_⟩
      have := ((hv.comma hd).word hch.2).char (b := false) hch.1
      simpa [joinWith, add_comm, add_left_comm] using this

lemma Valid.readsValue {v : WrittenValue} (h : v.Valid) (hr : Stops rest) :
    ReadsValue false (v.written ++ rest) v.written.length := by
  cases v with
  | bare pieces =>
    obtain ⟨c, s, hs, -, hv⟩ := exists_readsValue_bare h hr
    exact hs ▸ hv
  | quoted text => simpa [written] using (ReadsValue.stop hr).quoted (all_eq_true.1 h.2) h.1

end WrittenValue

/-- A target as it is written: its name, and its options with their values. -/
structure WrittenTarget where
  name : List Char
  options : List (List Char × WrittenValue)

def optionEntry (o : List Char × WrittenValue) : String × Json := (String.ofList o.1, .str (String.ofList o.2.text))

/-- A name of word characters and hyphens, none of them at its start. -/
def IsName (name : List Char) : Prop := name.head?.any (· != '-') = true ∧ name.all isNameChar = true deriving Decidable

namespace WrittenTarget

variable {t : WrittenTarget}

def Valid (t : WrittenTarget) : Prop :=
  IsName t.name ∧ (∀ o ∈ t.options, IsName o.1 ∧ o.2.Valid) ∧ (t.options.map Prod.fst).Nodup
  deriving Decidable

def optionToken (o : List Char × WrittenValue) : List Char := '-' :: (o.1 ++ '=' :: o.2.written)

def tokens (t : WrittenTarget) : List (List Char) := t.name :: t.options.map optionToken

def spec (t : WrittenTarget) : TargetSpec where
  name := String.ofList t.name
  options := ⟨t.options.map optionEntry⟩
  raw := joined " " (t.tokens.map String.ofList)

end WrittenTarget

/-- The text of targets, with a blank before each option and a comma and a blank between targets. -/
def render (ts : List WrittenTarget) : List Char := joinWith [',', ' '] (ts.map (joinWith [' '] ·.tokens))

/-! ### Tokens of a text -/

/-- A text is cut into some tokens, however much is looked at. -/
def Cuts (s : List Char) (toks : List (List Char)) : Prop := ∀ fuel, s.length ≤ fuel → tokensFrom fuel s = toks

lemma Cuts.nil : Cuts [] [] := by rintro (_ | fuel) - <;> rfl

lemma Cuts.token {tok : List Char} (hne : tok ≠ []) (hlen : tokenLength (tok ++ rest) = tok.length)
    (h : Cuts rest toks) : Cuts (tok ++ rest) (tok :: toks) := by
  obtain ⟨c, cs, rfl⟩ := exists_cons_of_ne_nil hne
  rintro (_ | fuel) hfl
  · simp at hfl
  · rw [cons_append] at hlen hfl ⊢
    rw [tokensFrom, hlen]
    simp only [length_cons, take_left', drop_left', length_append] at hfl ⊢
    rw [h fuel (by omega)]

lemma Cuts.blank (h : Cuts rest toks) : Cuts (' ' :: rest) toks := by
  rintro (_ | fuel) hfl
  · simp at hfl
  · exact h fuel (by simpa using hfl)

lemma Cuts.comma (h : Cuts rest toks) : Cuts ([','] ++ rest) ([','] :: toks) := .token (cons_ne_nil _ _) rfl h

lemma tokenLength_append {name : List Char} (hne : name ≠ []) (hnm : ∀ c ∈ name, isNameChar c)
    (hr : rest.head?.any isNameChar = false) :
    tokenLength (name ++ rest) = name.length + (if rest.head? == some '=' then 1 else 0) +
      valueLength (name ++ rest).length false (rest.drop (if rest.head? == some '=' then 1 else 0)) := by
  have htk : (name ++ rest).takeWhile isNameChar = name := by
    rw [takeWhile_append_of_pos hnm]
    cases rest with
    | nil => simp
    | cons c rest => rw [takeWhile_cons_of_neg (by simpa using hr), append_nil]
  simp only [tokenLength, htk, drop_left']
  rw [if_neg (by simpa using hne)]

/-- A token that ends wherever a token may end. -/
structure IsToken (tok : List Char) : Prop where
  ne_nil : tok ≠ []
  ne_comma : tok ≠ [',']
  length : ∀ rest, Stops rest → tokenLength (tok ++ rest) = tok.length

lemma Stops.head?_any (h : Stops rest) : rest.head?.any isNameChar = false ∧ (rest.head? == some '=') = false := by
  rcases h with rfl | ⟨_, rfl⟩ | ⟨_, rfl⟩ <;> exact ⟨rfl, rfl⟩

lemma isToken_of_isName {name : List Char} (h : IsName name) : IsToken name := by
  obtain ⟨hhd, hch⟩ := h
  rw [all_eq_true] at hch
  have hne : name ≠ [] := by
    rintro rfl
    simp at hhd
  refine ⟨hne, ?_, fun rest hr => ?_⟩
  · rintro rfl
    exact absurd (hch ',' mem_cons_self) (by decide +kernel)
  · rw [tokenLength_append hne hch hr.head?_any.1, hr.head?_any.2]
    exact congrArg (name.length + ·) (ReadsValue.stop hr _ (by simp))

variable {o : List Char × WrittenValue}

lemma isToken_optionToken (hnm : IsName o.1) (hv : o.2.Valid) : IsToken (WrittenTarget.optionToken o) := by
  refine ⟨cons_ne_nil _ _, by simp [WrittenTarget.optionToken], fun rest hr => ?_⟩
  have hch : ∀ c ∈ '-' :: o.1, isNameChar c := forall_mem_cons.2 ⟨by decide +kernel, all_eq_true.1 hnm.2⟩
  have hlen : tokenLength (('-' :: o.1) ++ '=' :: (o.2.written ++ rest)) = _ :=
    tokenLength_append (cons_ne_nil _ _) hch rfl
  have htk : WrittenTarget.optionToken o ++ rest = ('-' :: o.1) ++ '=' :: (o.2.written ++ rest) := by
    simp [WrittenTarget.optionToken]
  rw [htk, hlen, head?_cons, beq_self_eq_true, if_pos rfl, drop_one, tail_cons, hv.readsValue hr _ (by simp; omega)]
  simp [WrittenTarget.optionToken]
  omega

lemma Cuts.joinWith {ts : List (List Char)} (hts : ∀ tok ∈ ts, IsToken tok) (hr : Stops rest)
    (h : Cuts rest toks) : Cuts (joinWith [' '] ts ++ rest) (ts ++ toks) := by
  induction ts with
  | nil => exact h
  | cons tok ts ih =>
    rw [forall_mem_cons] at hts
    cases ts with
    | nil => exact .token hts.1.ne_nil (hts.1.length rest hr) h
    | cons q qs =>
      rw [Text.joinWith, append_assoc, append_assoc]
      · exact .token hts.1.ne_nil (hts.1.length _ (.inr (.inl ⟨_, rfl⟩))) (ih hts.2).blank
      · simp

lemma WrittenTarget.Valid.isToken {t : WrittenTarget} (h : t.Valid) : ∀ tok ∈ t.tokens, IsToken tok := by
  refine forall_mem_cons.2 ⟨isToken_of_isName h.1, fun tok htok => ?_⟩
  obtain ⟨o, ho, rfl⟩ := mem_map.1 htok
  exact isToken_optionToken (h.2.1 o ho).1 (h.2.1 o ho).2

lemma cuts_render {ts : List WrittenTarget} (hts : ∀ t ∈ ts, t.Valid) :
    Cuts (render ts) (intercalate [[',']] (ts.map WrittenTarget.tokens)) := by
  induction ts with
  | nil => exact .nil
  | cons t ts ih =>
    rw [forall_mem_cons] at hts
    cases ts with
    | nil => simpa [render, joinWith] using Cuts.joinWith hts.1.isToken (.inl rfl) .nil
    | cons u us =>
      have := Cuts.joinWith hts.1.isToken (.inr (.inr ⟨_, rfl⟩)) (ih hts.2).blank.comma
      simpa [render, joinWith, intercalate] using this

/-! ### Groups of tokens -/

lemma splitAtCommas_intercalate {groups : List (List (List Char))} (hne : groups ≠ [])
    (h : ∀ group ∈ groups, [','] ∉ group) : splitAtCommas (intercalate [[',']] groups) = groups := by
  have hgr : ∀ {group more : List (List Char)}, [','] ∉ group → ∀ first others, splitAtCommas more = first :: others →
        splitAtCommas (group ++ more) = (group ++ first) :: others := by
    intro group more hgr first others hmr
    induction group with
    | nil => exact hmr
    | cons tok group ih =>
      rw [mem_cons, not_or] at hgr
      rw [cons_append, splitAtCommas, ih hgr.2]
      exact if_neg fun hsm => hgr.1 (eq_of_beq hsm).symm
  induction groups with
  | nil => exact absurd rfl hne
  | cons group groups ih =>
    rw [forall_mem_cons] at h
    cases groups with
    | nil =>
      have hlst : splitAtCommas (group ++ []) = (group ++ []) :: [] := hgr h.1 [] [] rfl
      simpa [intercalate] using hlst
    | cons g gs =>
      have hr := ih (cons_ne_nil g gs) h.2
      have hcm : splitAtCommas ([','] :: intercalate [[',']] (g :: gs)) = [] :: g :: gs := by
        rw [splitAtCommas, hr]
        rfl
      have := hgr h.1 [] _ hcm
      simpa [intercalate] using this

lemma cutBy_append {isCut : Char → Bool} {name : List Char} (h : ∀ c ∈ name, isCut c = false) (hc : isCut c) :
    cutBy isCut (name ++ c :: rest) = (name, some rest) := by
  induction name with
  | nil => rw [nil_append, cutBy, if_pos hc]
  | cons d name ih =>
    rw [forall_mem_cons] at h
    rw [cons_append, cutBy, if_neg (by simp [h.1]), ih h.2]

lemma readOption_optionToken (hnm : IsName o.1) (hvl : o.2.Valid) :
    readOption (WrittenTarget.optionToken o) = .ok (optionEntry o) := by
  obtain ⟨hhd, hch⟩ := hnm
  have hcut : cutBy (· == '=') (o.1 ++ '=' :: o.2.written) = (o.1, some o.2.written) := by
    refine cutBy_append (fun c hc => beq_eq_false_iff_ne.2 ?_) rfl
    rintro rfl
    exact absurd (all_eq_true.1 hch _ hc) (by decide +kernel)
  obtain ⟨c, s, hwr, htx⟩ : ∃ c s, o.2.written = c :: s ∧ (if isQuote c then s.dropLast else c :: s) = o.2.text := by
    cases hv : o.2 with
    | bare pieces =>
      obtain ⟨c, s, hs, hc, -⟩ := WrittenValue.exists_readsValue_bare (hv ▸ hvl) (.inl rfl)
      rw [append_nil] at hs
      refine ⟨c, s, hs, ?_⟩
      rw [if_neg, ← hs, WrittenValue.text]
      intro hqt
      rw [isQuote, Bool.or_eq_true, beq_iff_eq, beq_iff_eq] at hqt
      rcases hqt with rfl | rfl <;> exact absurd hc (by decide +kernel)
    | quoted text => exact ⟨'"', text ++ ['"'], rfl, by simp [isQuote, WrittenValue.text]⟩
  rw [WrittenTarget.optionToken, readOption]
  · rw [head?_cons, beq_self_eq_true, if_pos rfl, drop_one, tail_cons, hcut, hwr]
    dsimp only
    rw [htx]
    rfl
  · intro name hnm
    cases hfst : o.1 with
    | nil => simp [hfst] at hhd
    | cons d ds => simp_all

lemma ofTokens_tokens {t : WrittenTarget} (h : t.Valid) : TargetSpec.ofTokens t.tokens = .ok t.spec := by
  have hrd : (t.options.map WrittenTarget.optionToken).mapM readOption = .ok (t.options.map optionEntry) := by
    rw [mapM_map]
    exact mapM_eq_ok fun o ho => readOption_optionToken (h.2.1 o ho).1 (h.2.1 o ho).2
  have hns : ((t.options.map optionEntry).map Prod.fst).Nodup := by
    have hns : ((t.options.map Prod.fst).map String.ofList).Nodup :=
      Pairwise.map _ (fun _ _ hne hsm => hne (String.ofList_injective hsm)) h.2.2
    rwa [map_map] at hns ⊢
  rw [WrittenTarget.tokens, TargetSpec.ofTokens, hrd, ok_bind, Keyed.ofList_of_nodup hns]
  rfl

/-- Targets are read back from their text, with their names and options, in the same order. -/
theorem parseTargets_render {ts : List WrittenTarget} (hne : ts ≠ []) (hts : ∀ t ∈ ts, t.Valid) :
    parseTargets (String.ofList (render ts)) = .ok (ts.map WrittenTarget.spec) := by
  have htokens : splitAtCommas (CommandLine.tokens (render ts)) = ts.map WrittenTarget.tokens := by
    rw [CommandLine.tokens, cuts_render hts _ (Nat.le_refl _)]
    refine splitAtCommas_intercalate (by simpa using hne) fun group hgroup hcomma => ?_
    obtain ⟨t, ht, rfl⟩ := mem_map.1 hgroup
    exact ((hts t ht).isToken _ hcomma).ne_comma rfl
  rw [parseTargets, String.toList_ofList, htokens, mapM_map]
  exact mapM_eq_ok fun t ht => ofTokens_tokens (hts t ht)

/-- Two targets, the second with a value in quotes. -/
def twoTargets : List WrittenTarget := [
  ⟨"ethos-n".toList, [("variant".toList, .bare ["n78".toList, "1.0".toList])]⟩,
  ⟨"llvm".toList, [("mattr".toList, .quoted "+v8 ,+neon".toList), ("mcpu".toList, .bare ["a-76".toList])]⟩]

theorem twoTargets_read_back :
    String.ofList (render twoTargets) = "ethos-n -variant=n78,1.0, llvm -mattr=\"+v8 ,+neon\" -mcpu=a-76" ∧
      parseTargets (String.ofList (render twoTargets)) = .ok (twoTargets.map WrittenTarget.spec) :=
  ⟨by decide +kernel, parseTargets_render (by decide) (by decide +kernel)⟩

/-! ### Texts that are refused -/

section

variable {α β : Type} {l : List α} {f : α → Except Fault β} {tok : List Char}

/-- What is wrong with an option: it has no equals sign, or nothing after it. One with two hyphens
in front needs no value. -/
def optionFaults (token : List Char) : List FaultKind :=
  if ['-', '-'] <+: token then []
  else
    match (cutBy (· == '=') token).2 with
    | none => [.badValue]
    | some [] => [.badIndex]
    | some _ => []

/-- What is wrong with a list of targets, in the order of the text. -/
def targetFaults (text : String) : List FaultKind :=
  (splitAtCommas (tokens text.toList)).flatMap fun group =>
    if group = [] then [.badIndex] else group.tail.flatMap optionFaults

/-- The first fault decides how an operation ends. -/
def Ends (P : β → Prop) (x : Except Fault β) : Option FaultKind → Prop
  | none => ∃ b, x = .ok b ∧ P b
  | some k => ∃ e, x = .error e ∧ e.kind = k

lemma Ends.bind {P : α → Prop} {Q : β → Prop} {x : Except Fault α} {k k' : Option FaultKind} (hx : Ends P x k)
    (hf : ∀ a, P a → Ends Q (f a) k') : Ends Q (x >>= f) (k.or k') := by
  cases k with
  | some k =>
    obtain ⟨e, rfl, he⟩ := hx
    exact ⟨e, rfl, he⟩
  | none =>
    obtain ⟨a, rfl, ha⟩ := hx
    exact hf a ha

lemma Ends.mapM {P : β → Prop} {g : α → List FaultKind} (h : ∀ a ∈ l, Ends P (f a) (g a).head?) :
    Ends (fun bs => ∀ b ∈ bs, P b) (l.mapM f) (l.flatMap g).head? := by
  induction l with
  | nil => exact ⟨[], rfl, by simp⟩
  | cons a l ih =>
    rw [forall_mem_cons] at h
    rw [mapM_cons, flatMap_cons, head?_append, ← Option.or_none (o := (l.flatMap g).head?)]
    exact h.1.bind fun b hb => (ih h.2).bind fun bs hbs => ⟨b :: bs, rfl, forall_mem_cons.2 ⟨hb, hbs⟩⟩

lemma ends_readOption (tok : List Char) : Ends (fun _ => True) (readOption tok) (optionFaults tok).head? := by
  by_cases hfl : ['-', '-'] <+: tok
  · obtain ⟨name, rfl⟩ := hfl
    rw [optionFaults, if_pos (prefix_append _ _)]
    exact ⟨_, rfl, trivial⟩
  · -- a single hyphen in front is no part of the name, and no equals sign
    have hcut : (cutBy (· == '=') (if tok.head? == some '-' then tok.drop 1 else tok)).2 = (cutBy (· == '=') tok).2 := by
      split
      · obtain ⟨tok, rfl⟩ := head?_eq_some_iff.1 (beq_iff_eq.1 ‹_›)
        rfl
      · rfl
    rw [optionFaults, if_neg hfl, ← hcut, readOption]
    · rcases cutBy (· == '=') (if tok.head? == some '-' then tok.drop 1 else tok) with ⟨name, _ | _ | ⟨c, value⟩⟩
      · exact ⟨_, rfl, rfl⟩
      · exact ⟨_, rfl, rfl⟩
      · exact ⟨_, rfl, trivial⟩
    · exact fun name e => hfl ⟨name, e.symm⟩

lemma ne_nil_of_mem_tokensFrom {fuel : Nat} (h : tok ∈ tokensFrom fuel s) : tok ≠ [] := by
  fun_induction tokensFrom fuel s with
  | case1 | case2 => cases h
  | case3 fuel c s _ ih => exact ih h
  | case4 fuel c s n _ ih =>
    rcases mem_cons.1 h with rfl | h
    · exact cons_ne_nil _ _
    · exact ih h

lemma mem_of_mem_splitAtCommas {group : List (List Char)} (h : group ∈ splitAtCommas toks) (htk : tok ∈ group) :
    tok ∈ toks := by
  induction toks generalizing group with
  | nil => simp_all [splitAtCommas]
  | cons t toks ih =>
    rw [splitAtCommas] at h
    split at h <;> grind

lemma ends_parseTargets (text : String) : Ends (fun ts => ∀ t ∈ ts, TargetSpec.name t ≠ "") (parseTargets text)
    (targetFaults text).head? := by
  refine Ends.mapM fun group hgr => ?_
  cases group with
  | nil => exact ⟨_, rfl, rfl⟩
  | cons name options =>
    have hne := ne_nil_of_mem_tokensFrom (mem_of_mem_splitAtCommas hgr mem_cons_self)
    have hop := Ends.mapM (l := options) fun tok _ => ends_readOption tok
    rw [TargetSpec.ofTokens, if_neg (cons_ne_nil _ _), ← Option.or_none (o := head? _)]
    exact hop.bind fun _ _ => ⟨_, rfl, by simpa using hne⟩

end

/-- Targets with names are read, or a bad value is reported, exactly if the first fault of the text,
if it has any, is a bad value. -/
theorem parseTargets_named_or_badValue_iff (text : String) :
    ((∃ ts, parseTargets text = .ok ts ∧ ∀ t ∈ ts, t.name ≠ "") ∨
        ∃ e, parseTargets text = .error e ∧ e.kind = .badValue) ↔
      ∀ k ∈ (targetFaults text).head?, k = .badValue := by
  have hend := ends_parseTargets text
  cases hk : (targetFaults text).head? with
  | none =>
    rw [hk] at hend
    exact ⟨by simp, fun _ => .inl hend⟩
  | some k =>
    rw [hk] at hend
    obtain ⟨e, he, rfl⟩ := hend
    simp [he]

/-- An empty text and an option without a value are reported as a bad position. -/
theorem parseTargets_badIndex : parseTargets "" = .error (.plain .badIndex) ∧
    parseTargets "llvm -mcpu=" = .error (.plain .badIndex) := ⟨rfl, rfl⟩

/-! ### Targets of configuration files -/

/-- A target of a configuration file, of which the kind is written first. -/
structure ConfigTarget where
  kind : Json
  options : List (String × Json)

namespace ConfigTarget

variable (t : ConfigTarget)

def json : Json := .obj (("kind", t.kind) :: t.options)

def arguments : List CliArgument := t.options.map fun o => ("target_" ++ displayed t.kind ++ "_" ++ o.1, o.2)

def Valid : Prop := "kind" ∉ t.options.map Prod.fst deriving Decidable

lemma Valid.targetArguments_json {t : ConfigTarget} (h : t.Valid) :
    targetArguments t.json = .ok (t.arguments.take 1, displayed t.kind) := by
  obtain ⟨kind, options⟩ := t
  cases options with
  | nil => rfl
  | cons o options =>
    have ho : TargetMember.ofField o.1 o.2 = .option o.1 o.2 := if_neg fun e => h (by simp [← beq_iff_eq.1 e])
    simp only [json, targetArguments, map_cons, ho]
    rfl

end ConfigTarget

section

variable {ts : List ConfigTarget} {first others : List (String × Json)} {own : List CliArgument}

/-- The arguments of targets stand among those of the other members of a file. -/
lemma argumentsFrom_insert {kind : Option String} {listed : List (List CliArgument × String)}
    (hown : (ts.map ConfigTarget.json).mapM targetArguments = .ok listed)
    (h : argumentsFrom kind (first ++ others) = .ok own) : ∃ front back, own = front ++ back ∧
      argumentsFrom kind (first ++ ("targets", .arr (ts.map ConfigTarget.json)) :: others) =
        .ok (front ++ ((listed.map Prod.fst).flatten ++ [("target", .str (joined ", " (listed.map Prod.snd)))]) ++ back) := by
  induction first generalizing kind own with
  | nil =>
    refine ⟨[], own, rfl, ?_⟩
    rw [nil_append] at h
    rw [nil_append, argumentsFrom, memberArguments, if_pos (beq_self_eq_true _), targetsOf, ok_bind, hown, ok_bind,
      pure_eq_ok, ok_bind]
    · dsimp only
      rw [h]
      rfl
    · simp
  | cons m first ih =>
    rw [cons_append, argumentsFrom] at h
    obtain ⟨⟨args, kind'⟩, hm, own, hown, h⟩ := bind₂_eq_ok.1 h
    cases h
    obtain ⟨front, back, rfl, hargs⟩ := ih hown
    refine ⟨args ++ front, back, (append_assoc ..).symm, ?_⟩
    rw [cons_append, argumentsFrom, hm, ok_bind]
    dsimp only
    rw [hargs, ok_bind, pure_eq_ok]
    simp only [append_assoc]

/-- The arguments of a file are those of its other members, and among them the first option of every
target and the joined kinds. All options of a target are listed if and only if there is at most
one. -/
theorem configArguments_targets (hv : ∀ t ∈ ts, t.Valid) (h : configArguments (.obj (first ++ others)) = .ok own) :
    (∃ front back, own = front ++ back ∧
      configArguments (.obj (first ++ ("targets", .arr (ts.map ConfigTarget.json)) :: others)) =
        .ok (front ++ (ts.flatMap (fun t => t.arguments.take 1) ++
          [("target", .str (joined ", " (ts.map fun t => displayed t.kind)))]) ++ back)) ∧
      ∀ t ∈ ts, t.arguments.take 1 = t.arguments ↔ t.options.length ≤ 1 := by
  constructor
  · have hown : (ts.map ConfigTarget.json).mapM targetArguments =
        .ok (ts.map fun t => (t.arguments.take 1, displayed t.kind)) := by
      rw [mapM_map]
      exact mapM_eq_ok fun t ht => (hv t ht).targetArguments_json
    have := argumentsFrom_insert hown h
    rwa [map_map, map_map] at this
  · intro t _
    rw [take_eq_self_iff, ConfigTarget.arguments, length_map]

end

def tunedTarget : ConfigTarget := ⟨.str "llvm", [("mcpu", .str "a"), ("mattr", .str "b")]⟩

theorem tunedTarget_first_listed : ∃ front back, [("output", .str "m.tar")] = front ++ back ∧
    configArguments (.obj [("output", .str "m.tar"), ("targets", .arr [tunedTarget.json])]) =
      .ok (front ++ [("target_llvm_mcpu", .str "a"), ("target", .str "llvm")] ++ back) :=
  (@configArguments_targets [tunedTarget] [("output", .str "m.tar")] [] _ (by decide) rfl).1

/-- Of two options after the kind the second is lost, and a kind after an option is not found. -/
theorem tunedTarget_second_lost :
    configArguments (.obj [("targets", .arr [tunedTarget.json, .obj [("mcpu", .str "a"), ("kind", .str "llvm")]])]) =
      .ok [("target_llvm_mcpu", .str "a"), ("target_('mcpu', 'a')_l", .str "l"),
        ("target", .str "llvm, ('mcpu', 'a')")] := rfl

/-! ### Inputs of graphs -/

/-- The nodes of a graph, each with its name and the number of its further outputs, and its
arguments. -/
structure DataGraph where
  nodes : List (String × ℕ)
  arguments : List ℕ
  names_nodup : (arguments.map fun n => (nodes.getD n ("", 0)).1).Nodup
  arguments_lt : ∀ n ∈ arguments, n < nodes.length

namespace DataGraph

variable (g : DataGraph)

def name (n : ℕ) : String := (g.nodes.getD n ("", 0)).1

/-- The first data entry of a node: earlier nodes have one entry each, and one for each further
output. -/
def rowStart (n : ℕ) : ℕ := n + ((g.nodes.take n).map Prod.snd).sum

/-- A graph as JSON, with the shapes and the types of its data entries. -/
structure Describes (j : Json) (shapes types : List Json) : Prop where
  arguments : j.field? "arg_nodes" = some (.arr (g.arguments.map fun n : ℕ => .int n))
  nodes : ∃ nodes, j.field? "nodes" = some (.arr nodes) ∧
    nodes.map (fun node => node.field? "name") = g.nodes.map fun e => some (.str e.1)
  rows : j.field? "node_row_ptr" = some (.arr ((range (g.nodes.length + 1)).map fun n : ℕ => .int (g.rowStart n)))
  tables : ∃ attributes tag tag', j.field? "attrs" = some attributes ∧
    attributes.field? "shape" = some (.arr [tag, .arr shapes]) ∧
    attributes.field? "dltype" = some (.arr [tag', .arr types])
  entries : shapes.length = g.rowStart g.nodes.length ∧ types.length = g.rowStart g.nodes.length

variable {g} {j : Json} {shapes types : List Json} {n : ℕ}

lemma rowStart_eq_self_iff : g.rowStart n = n ↔ ∀ e ∈ g.nodes.take n, e.2 = 0 := by
  rw [rowStart, Nat.add_eq_left, sum_eq_zero_iff, forall_mem_map]

lemma member_eq_ok {v : Json} {which : String} (h : j.field? which = some v) : member j which = .ok v := by
  cases j with
  | obj fields => rw [member, h, orFail_some]
  | _ => cases h

lemma itemAt_eq_ok {items : List Json} (h : n < items.length) : itemAt (.arr items) n = .ok (items.getD n .null) := by
  have hn : ¬ (n : ℤ) < 0 := by omega
  simp [itemAt, hn, h]

lemma Describes.node (h : g.Describes j shapes types) (hn : n < g.nodes.length) :
    ∃ nodes node, member j "nodes" = .ok nodes ∧ itemAt nodes n = .ok node ∧
      member node "name" = .ok (.str (g.name n)) := by
  obtain ⟨nodes, hnd, hnm⟩ := h.nodes
  have hlen : nodes.length = g.nodes.length := by simpa using congrArg length hnm
  refine ⟨_, _, member_eq_ok hnd, itemAt_eq_ok (hlen ▸ hn), member_eq_ok ?_⟩
  have := congrArg (·[n]?) hnm
  simpa [hlen, hn, name] using this

/-- An argument that is no parameter is reported with the entry that has the number of its node.
This is its own first entry exactly if no earlier node has a further output. -/
theorem inputsOf_entries (h : g.Describes j shapes types) (params : List String) :
    ∃ inputs, inputsOf j params = .ok inputs ∧ ∀ n ∈ g.arguments, g.name n ∉ params →
      inputs.get? (g.name n) = some ⟨shapes.getD n .null, types.getD n .null⟩ ∧
        (g.rowStart n = n ↔ ∀ e ∈ g.nodes.take n, e.2 = 0) := by
  obtain ⟨attributes, tag, tag', hat, hsh, hty⟩ := h.tables
  let found := fun n => if params.contains (g.name n) then none else
    some (g.name n, (⟨shapes.getD n .null, types.getD n .null⟩ : InputInfo))
  have hrun : inputsOf j params = .ok (Keyed.ofList (g.arguments.filterMap found)) := by
    rw [inputsOf, member_eq_ok h.arguments, ok_bind]
    change (mapM _ (g.arguments.map fun n : ℕ => Json.int n) >>= _) = _
    rw [mapM_map, mapM_eq_ok (g := found) fun n hn => ?_, ok_bind, filterMap_map]
    · rfl
    · have hlt := g.arguments_lt n hn
      obtain ⟨nodes, node, hnd, hit, hnm⟩ := h.node hlt
      have hent : n < g.rowStart g.nodes.length := hlt.trans_le (Nat.le_add_right ..)
      have htwo : ∀ tag items, itemAt (.arr [tag, .arr items]) 1 = .ok (.arr items) := fun _ _ => rfl
      simp only [Function.comp_apply, hnd, ok_bind, Json.integer, Json.int?, Option.getD_some, hit, hnm, Json.text, Json.string?,
        member_eq_ok hat, member_eq_ok hsh, member_eq_ok hty, htwo, itemAt_eq_ok (h.entries.1.symm ▸ hent),
        itemAt_eq_ok (h.entries.2.symm ▸ hent), found]
      split <;> rfl
  refine ⟨_, hrun, fun n hn hpr => ⟨?_, rowStart_eq_self_iff⟩⟩
  refine Keyed.get?_ofList_of_mem (mem_filterMap.2 ⟨n, hn, if_neg ?_⟩) fun i hi => ?_
  · rwa [contains_iff_mem]
  · obtain ⟨m, hm, hf⟩ := mem_filterMap.1 hi
    obtain ⟨-, hf⟩ := Option.ite_none_left_eq_some.1 hf
    obtain ⟨hnm, rfl⟩ := Prod.mk.inj (Option.some.inj hf)
    rw [inj_on_of_nodup_map g.names_nodup hm hn hnm]

/-- Two arguments, of which the first has two outputs. -/
def twoArguments : DataGraph := ⟨[("data", 1), ("weight", 0)], [0, 1], by decide, by decide⟩

def twoArgumentsJson : Json := .obj [
  ("arg_nodes", .arr [.int 0, .int 1]), ("nodes", .arr [.obj [("name", .str "data")], .obj [("name", .str "weight")]]),
  ("node_row_ptr", .arr [.int 0, .int 2, .int 3]), ("attrs", .obj [
    ("shape", .arr [.null, .arr [.int 4, .int 5, .int 6]]), ("dltype", .arr [.null, .arr [.null, .null, .null]])])]

theorem twoArguments_first_reported : ∃ inputs, inputsOf twoArgumentsJson ["weight"] = .ok inputs ∧
    inputs.get? "data" = some ⟨.int 4, .null⟩ := by
  obtain ⟨inputs, hrun, hin⟩ := inputsOf_entries (g := twoArguments) (j := twoArgumentsJson)
    ⟨rfl, ⟨_, rfl, rfl⟩, rfl, ⟨_, _, _, rfl, rfl, rfl⟩, rfl, rfl⟩ ["weight"]
  exact ⟨inputs, hrun, (hin 0 (by decide) (by decide)).1⟩

/-- The second argument owns the third entry and is reported with the second one. -/
theorem twoArguments_second_misreported : twoArguments.rowStart 1 = 2 ∧
    ∃ inputs, inputsOf twoArgumentsJson [] = .ok inputs ∧ inputs.get? "weight" = some ⟨.int 5, .null⟩ :=
  ⟨rfl, _, rfl, rfl⟩

end DataGraph

end TensorToolchain.CommandLine
