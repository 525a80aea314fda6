import TensorToolchain.Proofs.Json.NumberText

/-!
# Reading what was written

The text of a value is read as that value, if no object in it has two fields of one name. What
follows the text is left alone, and so the items of arrays and the fields of objects are read one
after another.
-/

namespace TensorToolchain.Json

open List Number Nat Bool

/-! ### Strings and their text

A character stands inside a string for itself, or as an escape of its code units: one of them, or a
pair of surrogates. Reading gives those units back and joins the pairs.
-/

variable {n : Nat}

def codeUnits (c : Char) : List Nat :=
  if c.toNat < 0x10000 then [c.toNat]
  else [0xD800 + (c.toNat - 0x10000) / 0x400, 0xDC00 + (c.toNat - 0x10000) % 0x400]

/-! ### Escapes -/

lemma hexDigit?_hexDigit (h : n < 16) : hexDigit? (hexDigit n) = some n := by interval_cases n <;> decide

lemma hexQuad?_hexDigit (h : n < 0x10000) :
    hexQuad? (hexDigit (n / 4096 % 16)) (hexDigit (n / 256 % 16)) (hexDigit (n / 16 % 16)) (hexDigit (n % 16)) =
      some n := by
  simp only [hexQuad?, hexDigit?_hexDigit (mod_lt _ (by decide : 16 > 0)), Option.bind_eq_bind,
    Option.bind_some, Option.pure_def, Option.some.injEq]
  omega

lemma stringUnits_unitEscape (h : n < 0x10000) (rest : List Char) :
    stringUnits (unitEscape n ++ rest) = (stringUnits rest).map fun r => (n :: r.1, r.2) := by
  rw [unitEscape]
  simp only [cons_append, nil_append]
  rw [stringUnits, hexQuad?_hexDigit h]

lemma toNat_valid (c : Char) : c.toNat < 0x110000 ∧ (c.toNat < 0xD800 ∨ 0xE000 ≤ c.toNat) := by
  have hvl := c.valid
  change c.toNat.isValidChar at hvl
  omega

lemma stringUnits_escapeChar (c : Char) (rest : List Char) :
    stringUnits (escapeChar c ++ rest) = (stringUnits rest).map fun r => (codeUnits c ++ r.1, r.2) := by
  have hlt := toNat_valid c
  unfold escapeChar
  split
  case h_8 hqt hsl hnw hrt htab hfd hbc =>
    dsimp only
    split
    · rename_i hpr
      simp only [and_eq_true, decide_eq_true_eq] at hpr
      have hun : codeUnits c = [c.toNat] := if_pos (by omega)
      rw [stringUnits.eq_def]
      split <;> simp_all
    · split_ifs with hsm
      · rw [codeUnits, if_pos hsm, stringUnits_unitEscape hsm]
        rfl
      · rw [codeUnits, if_neg hsm, append_assoc, stringUnits_unitEscape (by omega),
          stringUnits_unitEscape (by omega), Option.map_map]
        rfl
  all_goals rfl

/-! ### Code units -/

lemma unitChar_toNat (c : Char) : unitChar c.toNat = c := by
  have hvl := toNat_valid c
  have hnot : (0xD800 ≤ c.toNat && c.toNat < 0xE000) = false := by
    rw [and_eq_false_iff, decide_eq_false_iff_not, decide_eq_false_iff_not]
    omega
  rw [unitChar, hnot, if_neg (by simp), Char.ofNat_toNat]

lemma joinPairs_cons (h : n < 0xD800 ∨ 0xE000 ≤ n) (units : List Nat) :
    joinPairs (n :: units) = unitChar n :: joinPairs units := by
  cases units with
  | nil => rfl
  | cons lo rest =>
    have hnot : (0xD800 ≤ n && n < 0xDC00 && 0xDC00 ≤ lo && lo < 0xE000) = false := by
      rw [← not_eq_true]
      simp only [and_eq_true, decide_eq_true_eq]
      omega
    rw [joinPairs, hnot, if_neg (by simp)]

lemma joinPairs_codeUnits (c : Char) (units : List Nat) : joinPairs (codeUnits c ++ units) = c :: joinPairs units := by
  have hlt := toNat_valid c
  rw [codeUnits]
  split
  · rw [singleton_append, joinPairs_cons hlt.2, unitChar_toNat]
  · have hpr : (0xD800 ≤ 0xD800 + (c.toNat - 0x10000) / 0x400 &&
        0xD800 + (c.toNat - 0x10000) / 0x400 < 0xDC00 && 0xDC00 ≤ 0xDC00 + (c.toNat - 0x10000) % 0x400 &&
        0xDC00 + (c.toNat - 0x10000) % 0x400 < 0xE000) := by
      simp only [and_eq_true, decide_eq_true_eq]
      omega
    have hv : 0x10000 + (0xD800 + (c.toNat - 0x10000) / 0x400 - 0xD800) * 0x400 +
        (0xDC00 + (c.toNat - 0x10000) % 0x400 - 0xDC00) = c.toNat := by
      omega
    rw [cons_append, singleton_append, joinPairs, hpr, if_pos rfl, hv, Char.ofNat_toNat]

lemma joinPairs_flatMap (cs : List Char) : joinPairs (cs.flatMap codeUnits) = cs := by
  induction cs with
  | nil => rfl
  | cons c cs ih => rw [flatMap_cons, joinPairs_codeUnits, ih]

lemma stringUnits_quoted (cs rest : List Char) :
    stringUnits (cs.flatMap escapeChar ++ '"' :: rest) = some (cs.flatMap codeUnits, rest) := by
  induction cs with
  | nil => rfl
  | cons c cs ih =>
    rw [flatMap_cons, append_assoc, stringUnits_escapeChar, ih]
    rfl

lemma stringBody_escaped (s : String) (rest : List Char) :
    stringBody (s.toList.flatMap escapeChar ++ '"' :: rest) = some (s, rest) := by
  rw [stringBody, stringUnits_quoted, Option.map_some, joinPairs_flatMap, String.ofList_toList]

lemma toList_quoted (s : String) (rest : List Char) :
    (quoted s).toList ++ rest = '"' :: (s.toList.flatMap escapeChar ++ '"' :: rest) := by
  rw [quoted, String.toList_ofList, cons_append, append_assoc, singleton_append]

variable {c : Char} {blanks text' : List Char} {vs : List Json} {r : Json × List Char} {fs : List (String × Json)}

/-! ### Values without repeated names -/

mutual

/-- Whether no object in the value has two fields of one name. -/
def distinctNames : Json → Bool
  | .arr xs => distinctItems xs
  | .obj fs => decide (fs.map Prod.fst).Nodup && distinctFields fs
  | _ => true

/-- Whether no object in the items has two fields of one name. -/
def distinctItems : List Json → Bool
  | [] => true
  | x :: xs => distinctNames x && distinctItems xs

/-- Whether no object in the values of the fields has two fields of one name. -/
def distinctFields : List (String × Json) → Bool
  | [] => true
  | (_, x) :: fs => distinctNames x && distinctFields fs

end

lemma foldl_setField (fs acc : List (String × Json)) (h : ((acc ++ fs).map Prod.fst).Nodup) :
    fs.foldl (fun fs f => setField fs f.1 f.2) acc = acc ++ fs := by
  induction fs generalizing acc with
  | nil => rw [append_nil, foldl_nil]
  | cons f fs ih =>
    have hnew : (acc.any (·.1 == f.1)) = false := by
      rw [any_eq_false]
      intro g hg hnm
      rw [map_append] at h
      exact (nodup_append.1 h).2.2 g.1 (mem_map_of_mem hg) f.1 mem_cons_self (by simpa using hnm)
    rw [foldl_cons, setField, hnew, if_neg (by simp), ih _ (by simpa using h), append_assoc, singleton_append]

lemma ofFields_eq (h : (fs.map Prod.fst).Nodup) : ofFields fs = .obj fs := by
  rw [ofFields, foldl_setField fs [] h, nil_append]

/-! ### Blanks and separators -/

lemma skipBlanks_cons (h : isBlank c = false) (cs : List Char) : skipBlanks (c :: cs) = c :: cs := by
  rw [skipBlanks, dropWhile_cons, h, if_neg (by simp)]

lemma skipBlanks_append (h : ∀ c ∈ blanks, isBlank c) (text : List Char) :
    skipBlanks (blanks ++ text) = skipBlanks text := dropWhile_append_of_pos h

/-- A style whose separators are a comma and a colon, each with blanks after it. -/
structure Style.Separates (style : Style) : Prop where
  comma_eq : ∃ blanks, style.comma.toList = ',' :: blanks ∧ ∀ c ∈ blanks, isBlank c = true
  colon_eq : ∃ blanks, style.colon.toList = ':' :: blanks ∧ ∀ c ∈ blanks, isBlank c = true

lemma separates_spaced : Style.spaced.Separates := by
  have hbl : ∀ c ∈ [' '], isBlank c := by
    intro c hc
    obtain rfl := mem_singleton.1 hc
    rfl
  exact ⟨⟨[' '], rfl, hbl⟩, ⟨[' '], rfl, hbl⟩⟩

/-! ### Steps of the reader -/

variable {fuel : Nat} {text rest : List Char} {v : Json}

lemma value_of_scalar (hfl : 0 < fuel) (h : scalar text = some r) : value fuel text = some r := by
  obtain ⟨fuel, rfl⟩ := exists_eq_succ_of_ne_zero hfl.ne'
  rw [value.eq_def]
  dsimp only
  split
  · cases (show scalar ('"' :: _) = none from rfl).symm.trans h
  · cases (show scalar ('[' :: _) = none from rfl).symm.trans h
  · cases (show scalar ('\x7b' :: _) = none from rfl).symm.trans h
  · exact h

/-- A text that begins with a value begins with no blank, and with no closing bracket or brace. -/
lemma exists_head_of_value (h : value fuel text = some r) :
    ∃ c cs, text = c :: cs ∧ isBlank c = false ∧ c ≠ ']' ∧ c ≠ '\x7d' := by
  cases fuel with
  | zero => cases h
  | succ fuel =>
    cases text with
    | nil => cases h
    | cons c cs =>
      refine ⟨c, cs, rfl, ?_, ?_, ?_⟩
      · rw [← not_eq_true]
        intro hbl
        simp only [isBlank, or_eq_true, beq_iff_eq] at hbl
        rcases hbl with ((rfl | rfl) | rfl) | rfl <;> cases h
      · rintro rfl
        cases h
      · rintro rfl
        cases h

lemma skipBlanks_of_value (h : value fuel text = some r) : skipBlanks text = text := by
  obtain ⟨c, cs, rfl, hbl, -⟩ := exists_head_of_value h
  exact skipBlanks_cons hbl cs

lemma elements_last (hv : value fuel text = some (v, ']' :: rest)) : elements (fuel + 1) text = some ([v], rest) := by
  rw [elements, hv]
  rfl

lemma elements_next (hbl : ∀ c ∈ blanks, isBlank c)
    (hv : value fuel text = some (v, ',' :: (blanks ++ text'))) (hsk : skipBlanks text' = text')
    (hvs : elements fuel text' = some (vs, rest)) : elements (fuel + 1) text = some (v :: vs, rest) := by
  have hcm : isBlank ',' = false := rfl
  simp [elements, hv, skipBlanks_cons hcm, skipBlanks_append hbl, hsk, hvs]

lemma members_last (name : String) (hbl : ∀ c ∈ blanks, isBlank c) (hv : value fuel text = some (v, '\x7d' :: rest)) :
    members (fuel + 1) ((quoted name).toList ++ (':' :: (blanks ++ text))) = some ([(name, v)], rest) := by
  have hcl : isBlank ':' = false := rfl
  have hbr : isBlank '\x7d' = false := rfl
  simp [toList_quoted, members, stringBody_escaped, skipBlanks_cons hcl, skipBlanks_append hbl, skipBlanks_of_value hv,
    hv, skipBlanks_cons hbr]

lemma members_next (name : String) {blanks' : List Char} (hbl : ∀ c ∈ blanks, isBlank c)
    (hbl' : ∀ c ∈ blanks', isBlank c) (hv : value fuel text = some (v, ',' :: (blanks' ++ text')))
    (hsk : skipBlanks text' = text') (hfs : members fuel text' = some (fs, rest)) :
    members (fuel + 1) ((quoted name).toList ++ (':' :: (blanks ++ text))) = some ((name, v) :: fs, rest) := by
  have hcl : isBlank ':' = false := rfl
  have hcm : isBlank ',' = false := rfl
  simp [toList_quoted, members, stringBody_escaped, skipBlanks_cons hcl, skipBlanks_append hbl, skipBlanks_of_value hv,
    hv, skipBlanks_cons hcm, skipBlanks_append hbl', hsk, hfs]

lemma exists_head_of_elements {r : List Json × List Char} (h : elements fuel text = some r) :
    ∃ c cs, text = c :: cs ∧ isBlank c = false ∧ c ≠ ']' ∧ c ≠ '\x7d' := by
  cases fuel with
  | zero => cases h
  | succ fuel =>
    rw [elements] at h
    split at h
    · cases h
    · rename_i hv
      exact exists_head_of_value hv

lemma exists_head_of_members {r : List (String × Json) × List Char} (h : members fuel text = some r) :
    ∃ cs, text = '"' :: cs := by
  cases fuel with
  | zero => cases h
  | succ fuel =>
    rw [members.eq_def] at h
    dsimp only at h
    split at h
    · exact ⟨_, rfl⟩
    · cases h

lemma value_arr (h : elements fuel text = some (vs, rest)) : value (fuel + 1) ('[' :: text) = some (.arr vs, rest) := by
  obtain ⟨c, cs, rfl, hbl, hbr, -⟩ := exists_head_of_elements h
  simp [value, skipBlanks_cons hbl, hbr, h]

lemma value_obj (h : members fuel text = some (fs, rest)) :
    value (fuel + 1) ('\x7b' :: text) = some (ofFields fs, rest) := by
  obtain ⟨cs, rfl⟩ := exists_head_of_members h
  have hqt : isBlank '"' = false := rfl
  simp [value, skipBlanks_cons hqt, h]

/-! ### Texts -/

lemma toList_bracketed (opening s closing : String) (rest : List Char) :
    (opening ++ s ++ closing).toList ++ rest = opening.toList ++ (s.toList ++ (closing.toList ++ rest)) := by
  simp

lemma length_bracketed {opening s closing : String} (ho : opening.toList.length = 1)
    (hc : closing.toList.length = 1) : (opening ++ s ++ closing).toList.length = s.toList.length + 2 := by
  rw [String.toList_append, String.toList_append, length_append, length_append]
  omega

lemma closes_cons (h : c = ',' ∨ c = ']' ∨ c = '\x7d') (cs : List Char) : Closes (c :: cs) := by
  intro c' hc'
  obtain rfl : c = c' := by simpa using hc'
  exact h

variable {style : Style}

mutual

lemma value_render (hs : style.Separates) : ∀ (v : Json), v.distinctNames →
    ∀ {fuel : Nat} {rest : List Char}, 2 * (v.render style).toList.length < fuel → Closes rest →
      value fuel ((v.render style).toList ++ rest) = some (v, rest)
  | .null => by
    intro _ fuel rest hfl _
    rw [render]
    exact value_of_scalar (zero_lt_of_lt hfl) rfl
  | .bool b => by
    intro _ fuel rest hfl _
    rw [render]
    exact value_of_scalar (zero_lt_of_lt hfl) (by cases b <;> rfl)
  | .int n => by
    intro _ fuel rest hfl hr
    rw [render]
    exact value_of_scalar (zero_lt_of_lt hfl) (scalar_int n hr)
  | .float x => by
    intro _ fuel rest hfl hr
    rw [render]
    exact value_of_scalar (zero_lt_of_lt hfl) (scalar_float x hr)
  | .str s => by
    intro _ fuel rest hfl _
    obtain ⟨fuel, rfl⟩ := exists_eq_add_one.2 hfl.pos
    rw [render, toList_quoted, value, stringBody_escaped]
    rfl
  | .arr [] => by
    intro _ fuel rest hfl _
    obtain ⟨fuel, rfl⟩ := exists_eq_add_one.2 hfl.pos
    rw [render, renderItems, String.intercalate_nil, toList_bracketed]
    rfl
  | .arr (x :: xs) => by
    intro hv fuel rest hfl _
    obtain ⟨fuel, rfl⟩ := exists_eq_add_one.2 hfl.pos
    rw [distinctNames] at hv
    rw [render, length_bracketed rfl rfl] at hfl
    rw [render, toList_bracketed]
    exact value_arr (elements_render hs (x :: xs) (cons_ne_nil x xs) hv (by omega))
  | .obj [] => by
    intro _ fuel rest hfl _
    obtain ⟨fuel, rfl⟩ := exists_eq_add_one.2 hfl.pos
    rw [render, renderFields, String.intercalate_nil, toList_bracketed]
    rfl
  | .obj (f :: fs) => by
    intro hv fuel rest hfl _
    obtain ⟨fuel, rfl⟩ := exists_eq_add_one.2 hfl.pos
    rw [distinctNames, and_eq_true, decide_eq_true_eq] at hv
    rw [render, length_bracketed rfl rfl] at hfl
    rw [render, toList_bracketed, ← ofFields_eq hv.1]
    exact value_obj (members_render hs (f :: fs) (cons_ne_nil f fs) hv.2 (by omega))

lemma elements_render (hs : style.Separates) : ∀ (xs : List Json), xs ≠ [] → distinctItems xs →
    ∀ {fuel : Nat} {rest : List Char}, 2 * (style.comma.intercalate (renderItems style xs)).toList.length + 1 < fuel →
        elements fuel ((style.comma.intercalate (renderItems style xs)).toList ++ ']' :: rest) = some (xs, rest)
  | [] => by
    intro hne
    exact absurd rfl hne
  | [x] => by
    intro _ hx fuel rest hfl
    obtain ⟨fuel, rfl⟩ := exists_eq_add_one.2 hfl.pos
    rw [distinctItems, distinctItems, Bool.and_true] at hx
    rw [renderItems, renderItems, String.intercalate_singleton] at hfl ⊢
    exact elements_last (value_render hs x hx (by omega) (closes_cons (by simp) rest))
  | x :: y :: ys => by
    intro _ hx fuel rest hfl
    obtain ⟨fuel, rfl⟩ := exists_eq_add_one.2 hfl.pos
    obtain ⟨blanks, hcm, hbl⟩ := hs.comma_eq
    rw [distinctItems, and_eq_true] at hx
    rw [renderItems, renderItems, String.intercalate_cons_cons, ← renderItems] at hfl ⊢
    simp only [String.toList_append, hcm, append_assoc, cons_append, length_append, length_cons] at hfl ⊢
    have hys : elements fuel
        ((style.comma.intercalate (renderItems style (y :: ys))).toList ++ ']' :: rest) = some (y :: ys, rest) :=
      elements_render hs (y :: ys) (cons_ne_nil y ys) hx.2 (by omega)
    obtain ⟨c, cs, hhd, hbln, -⟩ := exists_head_of_elements hys
    exact elements_next hbl (value_render hs x hx.1 (by omega) (closes_cons (by simp) _))
      (by rw [hhd, skipBlanks_cons hbln]) hys

lemma members_render (hs : style.Separates) : ∀ (fs : List (String × Json)), fs ≠ [] →
    distinctFields fs → ∀ {fuel : Nat} {rest : List Char},
      2 * (style.comma.intercalate (renderFields style fs)).toList.length + 1 < fuel →
        members fuel ((style.comma.intercalate (renderFields style fs)).toList ++ '\x7d' :: rest) = some (fs, rest)
  | [] => by
    intro hne
    exact absurd rfl hne
  | [(name, x)] => by
    intro _ hx fuel rest hfl
    obtain ⟨fuel, rfl⟩ := exists_eq_add_one.2 hfl.pos
    obtain ⟨blanks, hcl, hbl⟩ := hs.colon_eq
    rw [distinctFields, distinctFields, Bool.and_true] at hx
    rw [renderFields, renderFields, String.intercalate_singleton] at hfl ⊢
    simp only [String.toList_append, hcl, append_assoc, cons_append, length_append, length_cons] at hfl ⊢
    exact members_last name hbl (value_render hs x hx (by omega) (closes_cons (by simp) rest))
  | (name, x) :: g :: gs => by
    intro _ hx fuel rest hfl
    obtain ⟨fuel, rfl⟩ := exists_eq_add_one.2 hfl.pos
    obtain ⟨blanks, hcl, hbl⟩ := hs.colon_eq
    obtain ⟨blanks', hcm, hbl'⟩ := hs.comma_eq
    rw [distinctFields, and_eq_true] at hx
    obtain ⟨t, ht⟩ : ∃ t, renderFields style (g :: gs) = t :: renderFields style gs := ⟨_, by rw [renderFields]⟩
    rw [renderFields, ht, String.intercalate_cons_cons, ← ht] at hfl ⊢
    simp only [String.toList_append, hcl, hcm, append_assoc, cons_append, length_append, length_cons] at hfl ⊢
    have hgs : members fuel ((style.comma.intercalate (renderFields style (g :: gs))).toList ++ '\x7d' :: rest) =
          some (g :: gs, rest) := members_render hs (g :: gs) (cons_ne_nil g gs) hx.2 (by omega)
    obtain ⟨cs, hhd⟩ := exists_head_of_members hgs
    exact members_next name hbl hbl' (value_render hs x hx.1 (by omega) (closes_cons (by simp) _))
      (by rw [hhd]; exact skipBlanks_cons rfl cs) hgs

end

lemma parse?_print (hv : v.distinctNames) : parse? v.print = some v := by
  have hrd : value (2 * v.print.toList.length + 2) (v.print.toList ++ []) = some (v, []) :=
    value_render separates_spaced v hv (by rw [print]; omega) closes_nil
  rw [append_nil] at hrd
  rw [parse?, skipBlanks_of_value hrd, hrd]
  rfl

end TensorToolchain.Json
