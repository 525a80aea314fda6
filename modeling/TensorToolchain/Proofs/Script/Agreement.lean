import TensorToolchain.Proofs.Keyed
import TensorToolchain.Proofs.Text.Reading
import TensorToolchain.Script.Session

/-!
# Evaluation of expressions
-/

namespace TensorToolchain.Script

/-! ### Temporary names

An evaluation only ever adds temporary names to its scope, each one once. What an operand stands for
when it is made it therefore stands for until an operator takes it, and every other name stands for
what it stood for at the start.
-/

open List Option

/-! ### What expressions mean

Operands are worked out when they are needed, so that a connective stops at the first operand that
decides, a chain of comparisons at the first that fails, and a conditional expression works out one
of its two branches.
-/

namespace Expr

mutual

/-- What an expression means in a scope, if it means anything. -/
@[simp] def meaning (scope : Scope) : Expr → Option Object
  | .literal v _ => some { value := v }
  | .name id => scope.lookup id
  | .binary op l r => do
    let a ← meaning scope l
    let b ← meaning scope r
    (op.apply a b).toOption
  | .unary op e => do
    let a ← meaning scope e
    (op.apply a).toOption
  | .junction op es => junctionMeaning scope op es
  | .compare first ops rest => do
    let a ← meaning scope first
    chainMeaning scope a ops rest
  | .tuple es => (meanings scope es).map .tuple
  | .list es => (meanings scope es).map .list
  | .dict ks vs => do
    let keys ← meanings scope ks
    let values ← meanings scope vs
    (Object.makeDict (keys.zip values)).toOption
  | .choice test yes no => do
    let a ← meaning scope test
    if a.truthy then meaning scope yes else meaning scope no
  | .subscript container index => do
    let a ← meaning scope container
    let b ← meaning scope index
    (a.lookup b).toOption
  | .slice start stop step => do
    let lo ← boundMeaning scope start
    let hi ← boundMeaning scope stop
    let st ← boundMeaning scope step
    return .slice lo hi st

@[simp] def meanings (scope : Scope) : List Expr → Option (List Object)
  | [] => some []
  | e :: es => do
    let x ← meaning scope e
    let xs ← meanings scope es
    return x :: xs

/-- What operands mean under a connective: the first that decides, else the last. -/
@[simp] def junctionMeaning (scope : Scope) (op : Junction) : List Expr → Option Object
  | [] => none
  | [e] => meaning scope e
  | e :: es => do
    let a ← meaning scope e
    if op.decides a then return a else junctionMeaning scope op es

/-- What a chain of comparisons means: whether each of them holds of its two neighbours. -/
@[simp] def chainMeaning (scope : Scope) (left : Object) : List CompareOp → List Expr → Option Object
  | [op], [e] => do
    let right ← meaning scope e
    let b ← (op.apply left right).toOption
    return { value := .bool b }
  | op :: ops, e :: es => do
    let right ← meaning scope e
    let b ← (op.apply left right).toOption
    if b then chainMeaning scope right ops es else return { value := .bool false }
  | _, _ => none

/-- What a part of a slice means, which may be missing. -/
@[simp] def boundMeaning (scope : Scope) : Option Expr → Option Object
  | none => some { value := .none }
  | some e => meaning scope e

end

mutual

/-- An expression and all its parts, however deep. -/
@[simp] def subexpressions : Expr → List Expr
  | .literal v former => [.literal v former]
  | .name id => [.name id]
  | .binary op l r => .binary op l r :: (subexpressions l ++ subexpressions r)
  | .unary op e => .unary op e :: subexpressions e
  | .junction op es => .junction op es :: allSubexpressions es
  | .compare first ops rest => .compare first ops rest :: (subexpressions first ++ allSubexpressions rest)
  | .tuple es => .tuple es :: allSubexpressions es
  | .list es => .list es :: allSubexpressions es
  | .dict ks vs => .dict ks vs :: (allSubexpressions ks ++ allSubexpressions vs)
  | .choice test yes no => .choice test yes no :: (subexpressions test ++ subexpressions yes ++ subexpressions no)
  | .subscript c i => .subscript c i :: (subexpressions c ++ subexpressions i)
  | .slice a b c => .slice a b c :: (boundSubexpressions a ++ boundSubexpressions b ++ boundSubexpressions c)

@[simp] def allSubexpressions : List Expr → List Expr
  | [] => []
  | e :: es => subexpressions e ++ allSubexpressions es

/-- A part of a slice, which may be missing, and all its parts. -/
@[simp] def boundSubexpressions : Option Expr → List Expr
  | none => []
  | some e => subexpressions e

end

lemma mem_subexpressions_self (e : Expr) : e ∈ e.subexpressions := by cases e <;> simp

end Expr

/-- A name that a variable of a script may have: no name of a constant, and not begun like a
temporary name. -/
def IsVariableName (id : String) : Prop := id ∉ constantNames ∧ id ≠ debugName ∧ ¬ temporaryStem.toList <+: id.toList

instance (id : String) : Decidable (IsVariableName id) := inferInstanceAs (Decidable (_ ∧ _))

/-- An expression that is put together as in a script, its parts aside: a literal carries its value
both times, a name is that of a variable, a connective has operands, a comparison is single, and
every key has a value. -/
def Expr.IsPlain : Expr → Prop
  | .literal v former => former = v
  | .name id => IsVariableName id
  | .junction _ es => es ≠ []
  | .compare _ ops rest => ops.length = 1 ∧ rest.length = 1
  | .dict ks vs => ks.length = vs.length
  | _ => True

variable {α : Type} {id : String} {xs : List Object} {os : List Operand}

/-! ### Names -/

lemma temporaryName_injective : Function.Injective temporaryName := by
  intro m n h
  have hdg : (toString m).toList = (toString n).toList := by
    refine (append_right_inj temporaryStem.toList).1 ?_
    rw [← String.toList_append, ← String.toList_append]
    exact congrArg String.toList h
  -- the digits of a number read back as the number
  have hrd : some (m : Int) = some (n : Int) := by
    rw [← Text.readInt?_toString m, ← Text.readInt?_toString n]
    exact congrArg Text.readInt? hdg
  exact Int.ofNat.inj (some.inj hrd)

lemma stem_of_temporaryName (n : Nat) : temporaryStem.toList <+: (temporaryName n).toList := by
  rw [temporaryName, String.toList_append]
  exact prefix_append _ _

lemma IsVariableName.ne_temporaryName (h : IsVariableName id) (n : Nat) : id ≠ temporaryName n :=
  fun heq => h.2.2 (heq ▸ stem_of_temporaryName n)

lemma temporaryName_ne_constant (n : Nat) : temporaryName n ∉ constantNames ∧ temporaryName n ≠ debugName := by
  have hne : ∀ id ∈ debugName :: constantNames, temporaryName n ≠ id := by
    rintro id hid rfl
    have hno : ∀ id ∈ debugName :: constantNames, ¬ temporaryStem.toList <+: id.toList := by decide
    exact hno _ hid (stem_of_temporaryName n)
  exact ⟨fun hmem => hne _ (mem_cons_of_mem _ hmem) rfl, hne _ mem_cons_self⟩

/-! ### What stays -/

/-- A later state of an evaluation: names other than the temporary ones that were given in between
stand for what they stood for. -/
structure Extends (p q : Progress) : Prop where
  count_le : p.count ≤ q.count
  lookup_eq : ∀ id, (∀ n, p.count ≤ n → n < q.count → id ≠ temporaryName n) → q.scope.lookup id = p.scope.lookup id

variable {p q r : Progress} {o : Operand} {x : Object}

lemma Extends.refl (p : Progress) : Extends p p := ⟨le_refl _, fun _ _ => rfl⟩

lemma Extends.trans (h : Extends p q) (h' : Extends q r) : Extends p r where
  count_le := le_trans h.count_le h'.count_le
  lookup_eq id hid := by
    rw [h'.lookup_eq id fun n hn => hid n (le_trans h.count_le hn),
      h.lookup_eq id fun n hn hlt => hid n hn (lt_of_lt_of_le hlt h'.count_le)]

def Progress.storing (p : Progress) (x : Object) : Progress :=
  { scope := p.scope.bind (temporaryName p.count) x, count := p.count + 1 }

lemma lookup_bind (scope : Scope) (name other : String) (x : Object) :
    (scope.bind name x).lookup other = if other = name then some x else scope.lookup other := by
  rw [Scope.bind, Keyed.lookup_cons_filter]
  simp

lemma extends_storing (p : Progress) (x : Object) : Extends p (p.storing x) where
  count_le := Nat.le_succ _
  lookup_eq _ hid := by rw [Progress.storing, lookup_bind, if_neg (hid p.count (le_refl _) (Nat.lt_succ_self _))]

/-- An operand that stands for an object, and will whatever is stored from now on. -/
def Denotes (p : Progress) (x : Object) : Operand → Prop
  | .literal v former => former = v ∧ x = { value := v }
  | .name id => id ∉ constantNames ∧ id ≠ debugName ∧ (∀ n, p.count ≤ n → id ≠ temporaryName n) ∧
      p.scope.lookup id = some x

lemma Denotes.mono (h : Denotes p x o) (hext : Extends p q) : Denotes q x o := by
  cases o with
  | literal v former => exact h
  | name id =>
    obtain ⟨hcn, hdb, htm, hlk⟩ := h
    refine ⟨hcn, hdb, fun n hn => htm n (le_trans hext.count_le hn), ?_⟩
    rw [hext.lookup_eq id fun n hn _ => htm n hn, hlk]

lemma denotes_storing (p : Progress) (x : Object) : Denotes (p.storing x) x (.name (temporaryName p.count)) := by
  obtain ⟨hcn, hdb⟩ := temporaryName_ne_constant p.count
  refine ⟨hcn, hdb, fun n hn heq => ?_, by rw [Progress.storing, lookup_bind, if_pos rfl]⟩
  exact Nat.not_le_of_lt hn (le_of_eq (temporaryName_injective heq).symm)

lemma denotes_name (hid : IsVariableName id) (h : p.scope.lookup id = some x) : Denotes p x (.name id) :=
  ⟨hid.1, hid.2.1, fun n _ => hid.ne_temporaryName n, h⟩

lemma Denotes.result_eq (h : Denotes p x o) : o.result p.scope = .ok x.value := by
  cases o with
  | literal v former =>
    rw [h.2]
    rfl
  | name id => simp only [Operand.result, h.2.2.2]

/-! ### Steps of an evaluation -/

/-- A step of an evaluation succeeds, and what it gives and leaves is as `post` says. -/
def Finds {α : Type} (step : Eval α) (p : Progress) (post : α → Progress → Prop) : Prop :=
  ∃ a q, step.run p = .ok (a, q) ∧ Extends p q ∧ post a q

lemma Finds.bind {β : Type} {step : Eval α} {next : α → Eval β} {mid : α → Progress → Prop}
    {post : β → Progress → Prop} (h : Finds step p mid)
    (hnx : ∀ a q, Extends p q → mid a q → Finds (next a) q post) : Finds (step >>= next) p post := by
  obtain ⟨a, q, hrun, hext, hmid⟩ := h
  obtain ⟨b, r, hrn', hex', hps⟩ := hnx a q hext hmid
  refine ⟨b, r, ?_, hext.trans hex', hps⟩
  rw [StateT.run_bind, hrun]
  exact hrn'

lemma Finds.ret {a : α} {post : α → Progress → Prop} (h : post a p) : Finds (pure a) p post := ⟨a, p, rfl, .refl p, h⟩

lemma finds_get : Finds (get : Eval Progress) p fun p' q => p' = p ∧ q = p := ⟨p, p, rfl, .refl p, rfl, rfl⟩

lemma finds_store (x : Object) : Finds (store x) p fun o q => Denotes q x o :=
  ⟨_, p.storing x, rfl, extends_storing p x, denotes_storing p x⟩

lemma finds_attempt {result : Except Fault Object} (h : result.toOption = some x) :
    Finds (attempt result) p fun y _ => y = x := by
  cases result with
  | error f => cases h
  | ok y => exact ⟨y, p, rfl, .refl p, some.inj h⟩

lemma Denotes.finds_object (h : Denotes p x o) : Finds o.object p fun y _ => y = x := by
  cases o with
  | literal v former =>
    obtain ⟨rfl, rfl⟩ := h
    exact .ret rfl
  | name id =>
    obtain ⟨hcn, hdb, -, hlk⟩ := h
    refine ⟨x, p, ?_, .refl p, rfl⟩
    have hop : p.scope.operand id = .ok x := by simp [Scope.operand, hcn, hdb, hlk]
    change ((ofExcept (p.scope.operand id) : Eval Object)).run p = _
    rw [hop]
    rfl

def DenoteAll (p : Progress) (xs : List Object) (os : List Operand) : Prop := Forall₂ (Denotes p) xs os

lemma DenoteAll.mono (h : DenoteAll p xs os) (hext : Extends p q) : DenoteAll q xs os :=
  Forall₂.imp (fun _ _ hx => hx.mono hext) h

lemma DenoteAll.finds_objectsOf (h : DenoteAll p xs os) : Finds (objectsOf os) p fun ys _ => ys = xs := by
  suffices hlt : ∀ q, Extends p q → Finds (objectsOf os) q fun ys _ => ys = xs from hlt p (.refl p)
  induction h with
  | nil => exact fun q _ => .ret rfl
  | cons hx _ ih =>
    intro q hext
    rw [objectsOf, mapM_cons]
    refine (hx.mono hext).finds_object.bind fun y r hex' hy => ?_
    refine (ih r (hext.trans hex')).bind fun ys s _ hys => ?_
    exact .ret (by rw [hy, hys])

/-! ### Evaluation gives the meaning

Where every part of an expression means something, working out all parts under temporary names gives
what the expression means: parts that its meaning never looks at do no harm, and no name is hidden.
-/

open TensorToolchain.Script.Expr

variable {scope : Scope} {e l r first : Expr} {a b c : Object} {es : List Expr}

/-- Evaluating an expression gives what it means, from every state in which the names of the scope
are kept. -/
def Evaluates (scope : Scope) (e : Expr) (x : Object) : Prop :=
  e.meaning scope = some x ∧ ∀ p, Extends { scope } p → Finds (visit e) p fun o q => Denotes q x o

def EvaluateAll (scope : Scope) (es : List Expr) (xs : List Object) : Prop :=
  meanings scope es = some xs ∧ ∀ p, Extends { scope } p → Finds (visitAll es) p fun os q => DenoteAll q xs os

/-- Evaluating a part of a slice gives what it means, and later states keep it. -/
def EvaluatesBound (scope : Scope) (e : Option Expr) (x : Object) : Prop :=
  boundMeaning scope e = some x ∧ ∀ p, Extends { scope } p → Finds (visitOption e) p fun o q =>
      ∀ r, Extends q r → Finds (boundObject o) r fun y _ => y = x

lemma meanings_cons_eq_some :
    meanings scope (e :: es) = some (x :: xs) ↔ meaning scope e = some x ∧ meanings scope es = some xs := by
  rw [meanings]
  cases meaning scope e with
  | none => simp
  | some y => cases meanings scope es <;> simp

lemma length_meanings (h : meanings scope es = some xs) : xs.length = es.length := by
  induction es generalizing xs with
  | nil => exact congrArg length (some.inj h).symm
  | cons e es ih =>
    cases xs with
    | nil => simp [bind_eq_some_iff] at h
    | cons x xs => exact congrArg Nat.succ (ih (meanings_cons_eq_some.1 h).2)

/-! ### One node -/

lemma evaluates_literal (v : Value) : Evaluates scope (.literal v v) { value := v } := by
  refine ⟨by rw [meaning], fun p _ => ?_⟩
  exact .ret ⟨rfl, rfl⟩

lemma evaluates_name (hid : IsVariableName id) (h : scope.lookup id = some x) :
    Evaluates scope (.name id) x := by
  refine ⟨by rw [meaning, h], fun p hp => ?_⟩
  have hlk : p.scope.lookup id = some x := by
    rw [hp.lookup_eq id fun n _ _ => hid.ne_temporaryName n]
    exact h
  refine finds_get.bind fun p' q _ hp' => ?_
  obtain ⟨rfl, rfl⟩ := hp'
  simp only [hlk]
  exact .ret (denotes_name hid hlk)

lemma finds_stored {r : Except Fault Object} (hx : r.toOption = some x) :
    Finds (attempt r >>= store) p fun o q => Denotes q x o :=
  (finds_attempt hx).bind fun x' _ _ hx' => hx' ▸ finds_store x'

lemma Evaluates.finds_made (hl : Evaluates scope l a) (hr : Evaluates scope r b) (hp : Extends { scope } p)
    {make : Object → Object → Except Fault Object} (hx : (make a b).toOption = some x) :
    Finds (visit l >>= fun lo => visit r >>= fun ro => lo.object >>= fun a => ro.object >>= fun b =>
      attempt (make a b) >>= store) p fun o q => Denotes q x o := by
  refine (hl.2 p hp).bind fun lo q hq hlo => ?_
  refine (hr.2 q (hp.trans hq)).bind fun ro q' hq' hro => ?_
  refine (hlo.mono hq').finds_object.bind fun a' q'' hq'' ha => ?_
  refine (hro.mono hq'').finds_object.bind fun b' _ _ hb => ?_
  subst ha hb
  exact finds_stored hx

lemma evaluates_binary {op : BinaryOp} (hl : Evaluates scope l a) (hr : Evaluates scope r b)
    (hx : meaning scope (.binary op l r) = some x) : Evaluates scope (.binary op l r) x := by
  refine ⟨hx, fun p hp => ?_⟩
  exact hl.finds_made hr hp (by simpa [meaning, hl.1, hr.1] using hx)

lemma evaluates_unary {op : UnaryOp} (he : Evaluates scope e a) (hx : meaning scope (.unary op e) = some x) :
    Evaluates scope (.unary op e) x := by
  refine ⟨hx, fun p hp => ?_⟩
  have hap : (op.apply a).toOption = some x := by simpa [meaning, he.1] using hx
  refine (he.2 p hp).bind fun o q hq ho => ?_
  refine ho.finds_object.bind fun a' _ _ ha => ?_
  subst ha
  exact finds_stored hap

lemma evaluates_subscript {c i : Expr} (hc : Evaluates scope c a) (hi : Evaluates scope i b)
    (hx : meaning scope (.subscript c i) = some x) : Evaluates scope (.subscript c i) x := by
  refine ⟨hx, fun p hp => ?_⟩
  exact hc.finds_made hi hp (by simpa [meaning, hc.1, hi.1] using hx)

/-- Both branches of a conditional expression are evaluated, and the one that its meaning takes is
stored. -/
lemma evaluates_choice {t y n : Expr} (ht : Evaluates scope t a) (hy : Evaluates scope y b)
    (hn : Evaluates scope n c) : Evaluates scope (.choice t y n) (if a.truthy then b else c) := by
  constructor
  · rw [meaning, ht.1, hy.1, hn.1, apply_ite some]
    rfl
  intro p hp
  refine (ht.2 p hp).bind fun tested q hq hto => ?_
  refine (hy.2 q (hp.trans hq)).bind fun yo q' hq' hyo => ?_
  refine (hn.2 q' ((hp.trans hq).trans hq')).bind fun no r hr hno => ?_
  refine (hto.mono (hq'.trans hr)).finds_object.bind fun a' r' hr' ha => ?_
  refine (hyo.mono (hr.trans hr')).finds_object.bind fun b' r'' hr'' hb => ?_
  refine (hno.mono (hr'.trans hr'')).finds_object.bind fun c' _ _ hc => ?_
  subst ha hb hc
  exact finds_store _

lemma evaluates_slice {start stop step : Option Expr} (ha : EvaluatesBound scope start a)
    (hb : EvaluatesBound scope stop b) (hc : EvaluatesBound scope step c) :
    Evaluates scope (.slice start stop step) (.slice a b c) := by
  constructor
  · rw [meaning, ha.1, hb.1, hc.1]
    rfl
  intro p hp
  refine (ha.2 p hp).bind fun ao q hq hao => ?_
  refine (hb.2 q (hp.trans hq)).bind fun bo q' hq' hbo => ?_
  refine (hc.2 q' ((hp.trans hq).trans hq')).bind fun co r hr hco => ?_
  refine (hao r (hq'.trans hr)).bind fun a' r' hr' ha' => ?_
  refine (hbo r' (hr.trans hr')).bind fun b' r'' hr'' hb' => ?_
  refine (hco r'' (hr'.trans hr'')).bind fun c' _ _ hc' => ?_
  subst ha' hb' hc'
  exact finds_store _

section

variable (h : EvaluateAll scope es xs)
include h

/-- A node that stores what it makes of the objects of its parts. -/
lemma EvaluateAll.finds_made (hp : Extends { scope } p) {next : List Object → Eval Operand}
    (hnx : ∀ q, Finds (next xs) q fun o r => Denotes r x o) :
    Finds (visitAll es >>= (objectsOf · >>= next)) p fun o q => Denotes q x o := by
  refine (h.2 p hp).bind fun os q _ hos => ?_
  refine hos.finds_objectsOf.bind fun xs' r _ hxs => ?_
  exact hxs ▸ hnx r

lemma evaluates_tuple : Evaluates scope (.tuple es) (.tuple xs) := by
  refine ⟨by rw [meaning, h.1]; rfl, fun p hp => ?_⟩
  exact h.finds_made hp fun q => finds_store _

lemma evaluates_list : Evaluates scope (.list es) (.list xs) := by
  refine ⟨by rw [meaning, h.1]; rfl, fun p hp => ?_⟩
  exact h.finds_made hp fun q => finds_store _

end

lemma evaluates_dict {ks vs : List Expr} {keys values : List Object} (hk : EvaluateAll scope ks keys)
    (hv : EvaluateAll scope vs values) (hx : meaning scope (.dict ks vs) = some x) :
    Evaluates scope (.dict ks vs) x := by
  refine ⟨hx, fun p hp => ?_⟩
  have hmk : (Object.makeDict (keys.zip values)).toOption = some x := by simpa [meaning, hk.1, hv.1] using hx
  refine (hk.2 p hp).bind fun ko q hq hko => ?_
  refine (hv.2 q (hp.trans hq)).bind fun vo q' hq' hvo => ?_
  refine (hko.mono hq').finds_objectsOf.bind fun keys' q'' hq'' hks => ?_
  refine (hvo.mono hq'').finds_objectsOf.bind fun values' _ _ hvs => ?_
  subst hks hvs
  exact finds_stored hmk

/-- Comparisons are worked out from the left once all operands are. -/
lemma Evaluates.finds_compared {ops : List CompareOp} {rest : List Expr} {bs : List Object}
    (hfst : Evaluates scope first a) (hr : EvaluateAll scope rest bs) (hp : Extends { scope } p)
    (hx : (compareChain a (ops.zip bs)).toOption = some x) :
    Finds (visit (.compare first ops rest)) p fun o q => Denotes q x o := by
  refine (hfst.2 p hp).bind fun lo q hq hlo => ?_
  refine (hr.2 q (hp.trans hq)).bind fun ro q' hq' hro => ?_
  refine (hlo.mono hq').finds_object.bind fun a' q'' hq'' ha => ?_
  refine (hro.mono hq'').finds_objectsOf.bind fun bs' _ _ hbs => ?_
  subst ha hbs
  exact finds_stored hx

lemma evaluates_compare {op : CompareOp} (hfst : Evaluates scope first a) (hr : EvaluateAll scope [e] [b])
    (hx : meaning scope (.compare first [op] [e]) = some x) : Evaluates scope (.compare first [op] [e]) x := by
  refine ⟨hx, fun p hp => hfst.finds_compared hr hp ?_⟩
  have he : meaning scope e = some b := (meanings_cons_eq_some.1 hr.1).1
  rw [meaning, hfst.1, bind_eq_bind, bind_some, chainMeaning, he, bind_eq_bind, bind_some] at hx
  change (op.apply a b >>= fun c => compareChain { value := .bool c } []).toOption = some x
  cases hap : op.apply a b with
  | error f =>
    rw [hap] at hx
    cases hx
  | ok c =>
    rw [hap] at hx
    exact hx

/-! ### Several parts -/

lemma evaluateAll_nil : EvaluateAll scope [] [] := by
  refine ⟨by rw [meanings], fun p _ => ?_⟩
  exact .ret .nil

lemma Evaluates.cons (h : Evaluates scope e x) (hes : EvaluateAll scope es xs) :
    EvaluateAll scope (e :: es) (x :: xs) := by
  refine ⟨meanings_cons_eq_some.2 ⟨h.1, hes.1⟩, fun p hp => ?_⟩
  refine (h.2 p hp).bind fun o q hq ho => ?_
  refine (hes.2 q (hp.trans hq)).bind fun os r hr hos => ?_
  exact .ret (.cons (ho.mono hr) hos)

lemma evaluatesBound_none : EvaluatesBound scope none { value := .none } := by
  refine ⟨by rw [boundMeaning], fun p _ => ?_⟩
  exact .ret fun r _ => .ret rfl

lemma Evaluates.bound (h : Evaluates scope e x) : EvaluatesBound scope (some e) x := by
  refine ⟨by rw [boundMeaning, h.1], fun p hp => ?_⟩
  refine (h.2 p hp).bind fun o q hq ho => ?_
  exact .ret fun r hr => (ho.mono hr).finds_object

/-- Once an operand of a connective decides, the others change nothing. -/
lemma foldl_apply_of_decides {op : Junction} (h : op.decides a) (xs : List Object) : xs.foldl op.apply a = a := by
  induction xs with
  | nil => rfl
  | cons x xs ih => rw [foldl_cons, Junction.apply, if_pos h, ih]

/-- Working out all operands of a connective from the left gives the first that decides, or the
last. -/
lemma junctionMeaning_eq (op : Junction) (h : meanings scope es = some (x :: xs)) :
    junctionMeaning scope op es = some (xs.foldl op.apply x) := by
  induction es generalizing x xs with
  | nil => simp at h
  | cons e es ih =>
    obtain ⟨ha, hxs⟩ := meanings_cons_eq_some.1 h
    cases es with
    | nil =>
      obtain rfl : xs = [] := by simpa using hxs.symm
      rw [junctionMeaning, ha, foldl_nil]
    | cons e' es =>
      obtain ⟨y, ys, rfl⟩ := exists_cons_of_length_eq_add_one (length_meanings hxs)
      have hst : junctionMeaning scope op (e :: e' :: es) =
          if op.decides x then some x else junctionMeaning scope op (e' :: es) := by
        rw [junctionMeaning, ha]
        · rfl
        · simp
      rw [hst]
      cases hdc : op.decides x with
      | true => rw [if_pos rfl, foldl_apply_of_decides hdc]
      | false => rw [if_neg Bool.false_ne_true, ih hxs, foldl_cons, Junction.apply, hdc, if_neg Bool.false_ne_true]

lemma evaluates_junction (op : Junction) (h : EvaluateAll scope es (x :: xs)) :
    Evaluates scope (.junction op es) (xs.foldl op.apply x) := by
  refine ⟨by rw [meaning, junctionMeaning_eq op h.1], fun p hp => ?_⟩
  exact h.finds_made hp fun q => finds_store _

/-! ### All nodes -/

/-- Expressions that are put together as in a script and mean something. -/
def AllMean (scope : Scope) (es : List Expr) : Prop := ∀ e ∈ es, e.IsPlain ∧ ∃ x, meaning scope e = some x

lemma allMean_append {fs : List Expr} : AllMean scope (es ++ fs) ↔ AllMean scope es ∧ AllMean scope fs :=
  forall_mem_append

lemma allMean_cons : AllMean scope (e :: es) ↔ (e.IsPlain ∧ ∃ x, meaning scope e = some x) ∧ AllMean scope es :=
  forall_mem_cons

mutual

lemma exists_evaluates (e : Expr) (h : AllMean scope e.subexpressions) : ∃ x, Evaluates scope e x := by
  cases e with
  | literal v former =>
    obtain rfl : former = v := (h _ (mem_subexpressions_self _)).1
    exact ⟨_, evaluates_literal former⟩
  | name id =>
    obtain ⟨hid, x, hx⟩ := h _ (mem_subexpressions_self _)
    exact ⟨x, evaluates_name hid (by rwa [meaning] at hx)⟩
  | binary op l r =>
    rw [subexpressions, allMean_cons, allMean_append] at h
    obtain ⟨⟨-, x, hx⟩, hl, hr⟩ := h
    obtain ⟨a, ha⟩ := exists_evaluates l hl
    obtain ⟨b, hb⟩ := exists_evaluates r hr
    exact ⟨x, evaluates_binary ha hb hx⟩
  | unary op e =>
    rw [subexpressions, allMean_cons] at h
    obtain ⟨⟨-, x, hx⟩, he⟩ := h
    obtain ⟨a, ha⟩ := exists_evaluates e he
    exact ⟨x, evaluates_unary ha hx⟩
  | junction op es =>
    rw [subexpressions, allMean_cons] at h
    obtain ⟨⟨hne, -⟩, hes⟩ := h
    obtain ⟨xs, hxs⟩ := exists_evaluateAll es hes
    have hlen : xs.length ≠ 0 := fun hz => hne (length_eq_zero_iff.1 (length_meanings hxs.1 ▸ hz))
    obtain ⟨y, ys, rfl⟩ := exists_cons_of_length_pos (Nat.pos_of_ne_zero hlen)
    exact ⟨_, evaluates_junction op hxs⟩
  | compare first ops rest =>
    rw [subexpressions, allMean_cons, allMean_append] at h
    obtain ⟨⟨⟨hops, hsn⟩, x, hx⟩, hfst, hrs⟩ := h
    obtain ⟨a, ha⟩ := exists_evaluates first hfst
    obtain ⟨bs, hbs⟩ := exists_evaluateAll rest hrs
    obtain ⟨op, rfl⟩ := length_eq_one_iff.1 hops
    obtain ⟨e, rfl⟩ := length_eq_one_iff.1 hsn
    obtain ⟨b, rfl⟩ := length_eq_one_iff.1 (length_meanings hbs.1)
    exact ⟨x, evaluates_compare ha hbs hx⟩
  | tuple es =>
    rw [subexpressions, allMean_cons] at h
    obtain ⟨xs, hxs⟩ := exists_evaluateAll es h.2
    exact ⟨_, evaluates_tuple hxs⟩
  | list es =>
    rw [subexpressions, allMean_cons] at h
    obtain ⟨xs, hxs⟩ := exists_evaluateAll es h.2
    exact ⟨_, evaluates_list hxs⟩
  | dict ks vs =>
    rw [subexpressions, allMean_cons, allMean_append] at h
    obtain ⟨⟨-, x, hx⟩, hks, hvs⟩ := h
    obtain ⟨keys, hky⟩ := exists_evaluateAll ks hks
    obtain ⟨values, hvl⟩ := exists_evaluateAll vs hvs
    exact ⟨x, evaluates_dict hky hvl hx⟩
  | choice t y n =>
    rw [subexpressions, allMean_cons, allMean_append, allMean_append] at h
    obtain ⟨-, ⟨ht, hy⟩, hn⟩ := h
    obtain ⟨a, ha⟩ := exists_evaluates t ht
    obtain ⟨b, hb⟩ := exists_evaluates y hy
    obtain ⟨c, hc⟩ := exists_evaluates n hn
    exact ⟨_, evaluates_choice ha hb hc⟩
  | subscript c i =>
    rw [subexpressions, allMean_cons, allMean_append] at h
    obtain ⟨⟨-, x, hx⟩, hc, hi⟩ := h
    obtain ⟨a, ha⟩ := exists_evaluates c hc
    obtain ⟨b, hb⟩ := exists_evaluates i hi
    exact ⟨x, evaluates_subscript ha hb hx⟩
  | slice start stop step =>
    rw [subexpressions, allMean_cons, allMean_append, allMean_append] at h
    obtain ⟨-, ⟨hst, hstp⟩, hste⟩ := h
    obtain ⟨a, ha⟩ := exists_evaluatesBound start hst
    obtain ⟨b, hb⟩ := exists_evaluatesBound stop hstp
    obtain ⟨c, hc⟩ := exists_evaluatesBound step hste
    exact ⟨_, evaluates_slice ha hb hc⟩

lemma exists_evaluateAll (es : List Expr) (h : AllMean scope (allSubexpressions es)) :
    ∃ xs, EvaluateAll scope es xs := by
  cases es with
  | nil => exact ⟨[], evaluateAll_nil⟩
  | cons e es =>
    rw [allSubexpressions, allMean_append] at h
    obtain ⟨x, hx⟩ := exists_evaluates e h.1
    obtain ⟨xs, hxs⟩ := exists_evaluateAll es h.2
    exact ⟨x :: xs, hx.cons hxs⟩

lemma exists_evaluatesBound (e : Option Expr) (h : AllMean scope (boundSubexpressions e)) :
    ∃ x, EvaluatesBound scope e x := by
  cases e with
  | none => exact ⟨_, evaluatesBound_none⟩
  | some e =>
    obtain ⟨x, hx⟩ := exists_evaluates e h
    exact ⟨x, hx.bound⟩

end

/-- Where an expression is put together as in a script and each of its parts means something,
evaluating it gives the value of what it means. The variables of a session stay as they are, and so
do all names but the temporary ones in the scope in which the parts are worked out. -/
theorem evaluate_eq_meaning (table : Table) (e : Expr) (hplain : ∀ s ∈ e.subexpressions, s.IsPlain)
    (hmeaning : ∀ s ∈ e.subexpressions, ∃ x, s.meaning table.scope = some x) :
    ∃ x, e.meaning table.scope = some x ∧ evaluate table e = .ok x.value ∧
      (∀ v : Variables, v.table = table → v.step (.evaluate e) = (v, reportValue x.value)) ∧
      ∃ o p, (visit e).run { scope := table.scope } = .ok (o, p) ∧
        ∀ id, (∀ n, id ≠ temporaryName n) → p.scope.lookup id = table.scope.lookup id := by
  have hall : AllMean table.scope e.subexpressions := fun s hs => ⟨hplain s hs, hmeaning s hs⟩
  obtain ⟨x, hx, hfinds⟩ := exists_evaluates e hall
  obtain ⟨o, p, hrun, hext, hdenotes⟩ := hfinds _ (.refl _)
  have hevaluate : evaluate table e = .ok x.value := by
    rw [evaluate, hrun]
    exact hdenotes.result_eq
  refine ⟨x, hx, hevaluate, fun v hv => ?_, o, p, hrun, fun id hid => hext.lookup_eq id fun n _ _ => hid n⟩
  rw [Variables.step, hv, hevaluate]

/-- A small number, a truth value, and a tuple. -/
def sampleTable : Table := [("n", .int 2), ("b", .bool false), ("t", .tuple [.int 7, .list [.int 1000]])]

/-- `t[:1] if n < 3 and not b else n + n`. -/
def sampleChoice : Expr :=
  .choice (.junction .and [.compare (.name "n") [.order .less] [.literal (.int 3) (.int 3)], .unary .not (.name "b")])
    (.subscript (.name "t") (.slice none (some (.literal (.int 1) (.int 1))) none))
    (.binary .add (.name "n") (.name "n"))

/-- All parts of the sample mean something, and it is evaluated to the first item of the tuple in a
tuple. -/
theorem sampleChoice_evaluated :
    (∀ s ∈ sampleChoice.subexpressions, s.IsPlain) ∧
    (∀ s ∈ sampleChoice.subexpressions, ∃ x, s.meaning sampleTable.scope = some x) ∧
    evaluate sampleTable sampleChoice = .ok (.tuple [.int 7]) := by
  have hplain : ∀ s ∈ sampleChoice.subexpressions, s.IsPlain := by
    have hnames : IsVariableName "n" ∧ IsVariableName "b" ∧ IsVariableName "t" := by decide
    simp [sampleChoice, IsPlain, hnames]
  have hsome : (sampleChoice.subexpressions.all fun s => (s.meaning sampleTable.scope).isSome) = true := rfl
  have hmeaning : ∀ s ∈ sampleChoice.subexpressions, ∃ x, s.meaning sampleTable.scope = some x :=
    fun s hs => Option.isSome_iff_exists.1 (List.all_eq_true.1 hsome s hs)
  obtain ⟨x, hx, hevaluate, -⟩ := evaluate_eq_meaning sampleTable sampleChoice hplain hmeaning
  have hvalue : (sampleChoice.meaning sampleTable.scope).map Object.value = some (.tuple [.int 7]) := rfl
  rw [hx] at hvalue
  exact ⟨hplain, hmeaning, by rw [hevaluate, Option.some.inj hvalue]⟩

end TensorToolchain.Script
