import TensorToolchain.ProjectServer.Request
import TensorToolchain.Proofs.Faults
import TensorToolchain.Proofs.Json.RoundTrip

/-!
# Requests that get their result

A request with the declared parameters passes all checks, so that one call is made for it. What
comes back is written at the very end, with the identity of the request, and only then is it missed.
-/

namespace TensorToolchain.ProjectServer

variable {r : CheckedRequest} {x x' : Exchange}

/-- A reply with its outcome, which is a result or an error. -/
def reply (id : Json) (outcome : String × Json) : Json := .obj [("jsonrpc", .str "2.0"), ("id", id), outcome]

/-- A request has exactly the parameters that the method which it names declares. -/
def CheckedRequest.Fits (r : CheckedRequest) (method : Method) : Prop :=
  Method.ofName? r.method = some method ∧ ∀ p, p ∈ r.params.map Prod.fst ↔ p ∈ method.parameters

/-- A request that passes the checks keeps its identity, or has none. -/
lemma id_of_checkRequest_eq_ok {request : Json} (h : checkRequest request = .ok r) :
    r.id = request.field? "id" := by
  simp only [checkRequest] at h
  split at h
  · split at h
    · cases h
    · split at h
      · rw [pure_bind] at h
        split at h
        · cases h
        · split at h
          · split at h
            · cases h
            · cases h
            · cases h
            · obtain rfl := Except.ok.inj h
              rfl
          · cases h
      · cases h
  · cases h

/-- Whether a value has the type that a parameter is declared with. Paths and versions are texts,
bytes are sent as digits in base 85, and a time may be left open. -/
def isDeclared : String → Json → Bool
  | "options", .obj _ | "n", .int _ | "n", .bool _ => true
  | "timeout_sec", .float _ | "timeout_sec", .int _ | "timeout_sec", .null => true
  | "options", _ | "n", _ | "timeout_sec", _ => false
  | "data", .str digits => (decode85? digits.toList).isSome
  | _, .str _ => true
  | _, _ => false

variable {method : Method} {argument : String → Json}

/-- Arguments of the declared types can be taken by the project. -/
lemma exists_prepare (h : ∀ p ∈ method.parameters, isDeclared p (argument p)) :
    ∃ call, Call.prepare? method argument = some call := by
  have htext : ∀ {p : String}, p ∈ method.parameters → p ∉ ["options", "n", "timeout_sec"] →
      ∃ s, argument p = .str s := by
    intro p hp hne
    have := h p hp
    simp only [isDeclared] at this
    split at this <;> simp_all
  cases method with
  | generateProject =>
    obtain ⟨library, hlibrary⟩ := htext (p := "model_library_format_path") (by decide) (by decide)
    obtain ⟨runtime, hruntime⟩ := htext (p := "standalone_crt_dir") (by decide) (by decide)
    obtain ⟨directory, hdirectory⟩ := htext (p := "project_dir") (by decide) (by decide)
    simp [Call.prepare?, hlibrary, hruntime, hdirectory, Json.string?]
  | writeTransport =>
    obtain ⟨digits, hdigits⟩ := htext (p := "data") (by decide) (by decide)
    have hdata := h "data" (by decide)
    rw [hdigits] at hdata
    obtain ⟨bytes, hbytes⟩ := Option.isSome_iff_exists.1 hdata
    simp [Call.prepare?, hdigits, hbytes, Json.string?]
  | _ => exact ⟨_, rfl⟩

lemma run_forM_eq_ok {f : String → Serving PUnit} {l : List String}
    (h : ∀ p ∈ l, (f p).run.run x = (.ok ⟨⟩, x)) : (l.forM f).run.run x = (.ok ⟨⟩, x) := by
  induction l with
  | nil => rfl
  | cons p l ih =>
    rw [List.forM, step_bind_run, h p List.mem_cons_self]
    exact ih fun q hq => h q (List.mem_cons_of_mem p hq)

/-- A request with exactly the declared parameters, all of the declared types, passes all checks. -/
lemma bindMethod_eq_ok (hfits : r.Fits method)
    (htyped : ∀ p ∈ method.parameters, isDeclared p ((r.params.lookup p).getD .null)) :
    (bindMethod r).run.run x = (.ok method, x) := by
  have hgiven : ∀ p ∈ method.parameters, ∃ v, r.params.lookup p = some v := fun p hp => by
    obtain ⟨e, he, rfl⟩ := List.mem_map.1 ((hfits.2 p).2 hp)
    exact Option.ne_none_iff_exists'.1 fun hnone => by simpa using List.lookup_eq_none_iff.1 hnone e he
  have hextra : (r.params.map Prod.fst).filter (!method.parameters.contains ·) = [] :=
    List.filter_eq_nil_iff.2 fun p hp => by simpa using (hfits.2 p).1 hp
  rw [bindMethod, hfits.1]
  rw [step_bind_run, run_forM_eq_ok]
  · dsimp only
    rw [checkExtra, hextra]
    rfl
  · intro p hp
    obtain ⟨v, hvalue⟩ := hgiven p hp
    have hdeclared := htyped p hp
    rw [hvalue]
    cases hchecked : method.isChecked with
    | false => cases v <;> rfl
    | true =>
      obtain rfl : p = "options" := by cases method <;> simp_all [Method.isChecked, Method.parameters]
      cases v <;> simp_all [isDeclared]
      rfl

lemma dispatch_eq (han : Handler) (hfits : r.Fits method)
    (htyped : ∀ p ∈ method.parameters, isDeclared p ((r.params.lookup p).getD .null))
    {call : Call} (hcall : Call.prepare? method (fun p => (r.params.lookup p).getD .null) = some call)
    {returned : Returned} (hreturned : han call = .ok returned) {value : Json}
    (hvalue : method.result? returned = some value) : (dispatch han r).run.run x =
      r.id.elim (.error (.failed .other), { x with calls := x.calls ++ [call] }) fun id =>
        (.ok (), ⟨x.replies ++ [reply id ("result", value)], x.calls ++ [call]⟩) := by
  have hinvoke : (invoke han call).run.run x = (.ok returned, { x with calls := x.calls ++ [call] }) := by
    rw [invoke, hreturned]
    rfl
  rw [dispatch, step_bind_run, bindMethod_eq_ok hfits htyped]
  simp only [hcall]
  rw [step_bind_run, hinvoke]
  dsimp only
  rw [hvalue]
  cases r.id with
  | none => rfl
  | some id => rfl

/-- A request that can be read and passes the checks, and has exactly the declared parameters, all
of the declared types, leads to one call. If a value that can be written comes back, it is the
result in the reply, provided that the request has an identity; without one the reply is an
error. -/
theorem serveLine_gives_result (handler : Handler) (x : Exchange) {line : String} {request : Json}
    (hline : Json.parse? line = some request) (hlong : hasLongInteger line = false)
    (hcheck : checkRequest request = .ok r) (hfits : r.Fits method)
    (htyped : ∀ p ∈ method.parameters, isDeclared p ((r.params.lookup p).getD .null) = true) :
    ∃ call, Call.prepare? method (fun p => (r.params.lookup p).getD .null) = some call ∧
      ∀ returned value, handler call = .ok returned → method.result? returned = some value →
        ((serveLine handler line).run x).2.calls = x.calls ++ [call] ∧
        ((serveLine handler line).run x).2.replies = x.replies ++ [(request.field? "id").elim
          (reply .null ("error", .obj [("code", serverCode), ("message", .str ("calling method " ++ r.method)),
            ("data", traceData)]))
          fun id => reply id ("result", value)] := by
  obtain ⟨call, hcall⟩ := exists_prepare htyped
  refine ⟨call, hcall, fun returned value hreturned hvalue => ?_⟩
  simp only [serveLine, hlong, hline, hcheck, Bool.false_eq_true, if_false]
  rw [StateT.run_bind, dispatch_eq handler hfits htyped hcall hreturned hvalue, ← id_of_checkRequest_eq_ok hcheck]
  cases hid : r.id with
  | none =>
    refine ⟨rfl, ?_⟩
    show x.replies ++ [reply (r.id.getD .null) _] = _
    rw [hid]
    rfl
  | some id => exact ⟨rfl, rfl⟩

/-- A request to flash a device, with no options. -/
def flashRequest : Json := .obj [("jsonrpc", .str "2.0"), ("method", .str "flash"),
  ("params", .obj [("options", .obj [])]), ("id", .int 7)]

theorem flashRequest_gets_result : isDeclared "options" (.obj []) = true ∧
    ((serveLine (fun _ => .ok (.value .null)) flashRequest.print).run {}).2.replies =
      [reply (.int 7) ("result", .null)] := by
  have hline := Json.parse?_print (v := flashRequest) rfl
  have hfits : CheckedRequest.Fits ⟨"flash", [("options", .obj [])], some (.int 7)⟩ .flash := ⟨rfl, fun p => Iff.rfl⟩
  obtain ⟨call, -, hserved⟩ := serveLine_gives_result (fun _ => .ok (.value .null)) {} hline
    (by decide +kernel) rfl hfits (List.forall_mem_singleton.2 rfl)
  exact ⟨rfl, (hserved (.value .null) .null rfl rfl).2⟩

/-- The request to close the transport, without an identity. -/
def unnumberedRequest : Json := .obj [("jsonrpc", .str "2.0"), ("method", .str "close_transport"), ("params", .obj [])]

/-- It passes the checks and is called, but its result is replaced by an error. -/
theorem unnumberedRequest_gets_error :
    checkRequest unnumberedRequest = .ok ⟨"close_transport", [], none⟩ ∧
    Method.closeTransport.result? (.value .null) = some .null ∧
    ((serveLine (fun _ => .ok (.value .null)) unnumberedRequest.print).run {}).2.calls.length = 1 ∧
    ((serveLine (fun _ => .ok (.value .null)) unnumberedRequest.print).run {}).2.replies =
      [reply .null ("error", .obj [("code", .int (-32000)),
        ("message", .str "calling method close_transport"), ("data", traceData)])] := by
  have hline := Json.parse?_print (v := unnumberedRequest) rfl
  have hshort : hasLongInteger unnumberedRequest.print = false := by decide +kernel
  simp only [serveLine, hshort, hline]
  exact ⟨rfl, rfl, rfl, rfl⟩

end TensorToolchain.ProjectServer
