import FeltRelay.Proofs.Json.Reader
import FeltRelay.Proofs.Result
import FeltRelay.Proofs.Schema.WellFormed
import FeltRelay.Schema.Lock.Reader

/-!
# Models of locks

What a lock text that is accepted guarantees of its model: names are distinct because members are,
and references and containment were checked (`sound_of_lock`).
-/

namespace FeltRelay.Schema.Lock

variable {n : Nat} {doc : Json} {m : Model}

/-! ### Parts of a tidy document -/

theorem tidy_of_lookup {ms : List (String × Json)} (h : Json.Tidy n (.obj ms)) {name : String}
    {v : Json} (hv : ms.lookup name = some v) : Json.Tidy n v := by
  cases h with
  | obj nodup each => exact each _ (Entries.mem_of_lookup hv)

theorem tidy_members (h : Json.Tidy n doc) : Json.Tidy n (.obj doc.members) := by
  cases h with
  | obj nodup each => exact .obj nodup each
  | _ => exact .obj List.nodup_nil fun _ h => absurd h List.not_mem_nil

theorem tidy_table (h : Json.Tidy n doc) (name : String) : Json.Tidy n (.obj (table name doc)) := by
  rw [table]
  cases hv : doc.member? name with
  | none => exact .obj List.nodup_nil fun _ h => absurd h List.not_mem_nil
  | some v => exact tidy_members (tidy_of_lookup (tidy_members h) hv)

theorem nodup_table (h : Json.Tidy n doc) (name : String) :
    ((table name doc).map (·.1)).Nodup := by
  cases tidy_table h name with
  | obj nodup each => exact nodup

theorem tidy_of_mem_table (h : Json.Tidy n doc) {name : String} {e : String × Json}
    (he : e ∈ table name doc) : Json.Tidy n e.2 := by
  cases tidy_table h name with
  | obj nodup each => exact each e he

theorem length_items_le {v : Json} (h : Json.Tidy n v) : (items v).length ≤ n := by
  cases h with
  | arr length each => exact length
  | _ => exact Nat.zero_le n

/-! ### References -/

/-- A loop over checks passes exactly if each check does. -/
theorem forIn_eq_ok_iff {α : Type} {xs : List α} (check : α → Except Failure Unit)
    {body : α → Unit → Except Failure (ForInStep Unit)}
    (hbody : ∀ x u, body x u = check x >>= fun _ => pure (.yield ())) :
    forIn xs () body = .ok () ↔ ∀ x ∈ xs, check x = .ok () := by
  induction xs with
  | nil => simp
  | cons x xs ih =>
    rw [List.forIn_cons, hbody, List.forall_mem_cons, ← ih]
    cases check x with
    | error e => simp
    | ok u => simp

theorem declared_of_checkTy {owner : String} {t : Ty} (h : checkTy m owner t = .ok ()) :
    t.Declared m := by
  induction t with
  | scalar s => trivial
  | message name =>
    rw [checkTy] at h
    split at h
    · assumption
    · cases h
  | enum name =>
    rw [checkTy] at h
    split at h
    · assumption
    · cases h
  | optional t ih => exact ih h
  | array t ih => exact ih h

theorem checkTy_of_declared {t : Ty} (h : t.Declared m) (owner : String) :
    checkTy m owner t = .ok () := by
  induction t with
  | scalar s => rfl
  | message name => exact if_pos h
  | enum name => exact if_pos h
  | optional t ih => exact ih h
  | array t ih => exact ih h

theorem mem_methods_iff {service : String} {x : Method} :
    (service, x) ∈ m.methods ↔ ∃ s ∈ m.services, s.name = service ∧ x ∈ s.methods := by
  simp only [Model.methods, List.mem_flatMap, List.mem_map, Prod.mk.injEq]
  constructor
  · rintro ⟨s, hs, y, hy, rfl, rfl⟩
    exact ⟨s, hs, rfl, hy⟩
  · rintro ⟨s, hs, rfl, hx⟩
    exact ⟨s, hs, x, hx, rfl, rfl⟩

theorem checkFields_eq_ok_iff (spec : Message) :
    (forIn spec.fields () fun (f : Field) _ => do
      checkTy m (spec.name ++ "." ++ f.name) f.type
      return ForInStep.yield ()) = .ok () ↔ ∀ f ∈ spec.fields, f.type.Declared m := by
  rw [forIn_eq_ok_iff _ fun f u => rfl]
  exact forall₂_congr fun f _ => ⟨declared_of_checkTy, fun h => checkTy_of_declared h _⟩

/-- The check of a method: both of its types. -/
def checkMethod (m : Model) (e : String × Method) : Except Failure Unit := do
  checkTy m (e.1 ++ "." ++ e.2.name) (.message e.2.request)
  checkTy m (e.1 ++ "." ++ e.2.name) (.message e.2.response)

theorem checkMethod_eq_ok_iff {e : String × Method} : checkMethod m e = .ok () ↔
    (m.message? e.2.request).isSome ∧ (m.message? e.2.response).isSome := by
  constructor
  · intro h
    obtain ⟨u, hrequest, hresponse⟩ := bind_eq_ok_iff.1 h
    exact ⟨declared_of_checkTy hrequest, declared_of_checkTy hresponse⟩
  · rintro ⟨hrequest, hresponse⟩
    have hreq : checkTy m (e.1 ++ "." ++ e.2.name) (.message e.2.request) = .ok () := if_pos hrequest
    rw [checkMethod, hreq, ok_bind]
    exact if_pos hresponse

/-- References are accepted exactly if each one is declared. -/
theorem checkReferences_eq_ok_iff : checkReferences m = .ok () ↔
    m.Closed ∧ ∀ s ∈ m.services, ∀ x ∈ s.methods,
      (m.message? x.request).isSome ∧ (m.message? x.response).isSome := by
  have hmessages : (forIn m.messages () fun (spec : Message) _ => do
      forIn spec.fields () fun (f : Field) _ => do
        checkTy m (spec.name ++ "." ++ f.name) f.type
        return ForInStep.yield ()
      return ForInStep.yield ()) = .ok () ↔ m.Closed := by
    rw [forIn_eq_ok_iff _ fun f u => rfl]
    exact forall₂_congr fun spec _ => checkFields_eq_ok_iff spec
  have hmethods : (forIn m.methods () fun (e : String × Method) _ => do
      checkTy m (e.1 ++ "." ++ e.2.name) (.message e.2.request)
      checkTy m (e.1 ++ "." ++ e.2.name) (.message e.2.response)
      return ForInStep.yield ()) = .ok () ↔ ∀ s ∈ m.services, ∀ x ∈ s.methods,
        (m.message? x.request).isSome ∧ (m.message? x.response).isSome := by
    rw [forIn_eq_ok_iff (checkMethod m) fun e u => (bind_assoc ..).symm]
    constructor
    · intro h s hs x hx
      exact checkMethod_eq_ok_iff.1 (h (s.name, x) (mem_methods_iff.2 ⟨s, hs, rfl, hx⟩))
    · rintro h ⟨service, x⟩ he
      obtain ⟨s, hs, rfl, hx⟩ := mem_methods_iff.1 he
      exact checkMethod_eq_ok_iff.2 (h s hs x hx)
  rw [← hmessages, ← hmethods]
  constructor
  · intro h
    obtain ⟨u, hfirst, h⟩ := bind_eq_ok_iff.1 h
    obtain ⟨u', hsecond, -⟩ := bind_eq_ok_iff.1 h
    exact ⟨hfirst, hsecond⟩
  · rintro ⟨hfirst, hsecond⟩
    exact bind_eq_ok_iff.2 ⟨(), hfirst, bind_eq_ok_iff.2 ⟨(), hsecond, rfl⟩⟩

/-! ### Lock texts -/

theorem eq_ok_of_invalid {α : Type} {r : Except Failure α} {a : α} (h : invalid r = .ok a) :
    r = .ok a := by
  cases r with
  | error f => cases h
  | ok b => exact h

/-- The checks that an accepted lock text has passed. -/
structure Accepted (text : String) (doc : Json) (l : Lock) : Prop where
  read : Json.read? text = some doc
  form : shallowest? (faults doc) = none
  model : modelOf doc = .ok l.model
  references : checkReferences l.model = .ok ()
  contained : l.model.checkContainment = .ok ()
  stored : textAt "schema_hash" doc = l.hash
  hash : l.hash = l.model.hash
  version : l.version = (doc.member? "version").getD .null

theorem accepted_of_ofText {text : String} {l : Lock} (h : ofText text = .ok l) :
    ∃ doc, Accepted text doc l := by
  rw [ofText] at h
  split at h
  · rename_i doc hread
    split at h
    · cases h
    · rename_i hform
      dsimp only at h
      obtain ⟨m, hmodel, h⟩ := bind_eq_ok_iff.1 h
      obtain ⟨_, hreferences, h⟩ := bind_eq_ok_iff.1 h
      obtain ⟨_, hcontained, h⟩ := bind_eq_ok_iff.1 h
      split at h
      · cases h
      · rename_i hhash
        cases h
        exact ⟨doc, hread, Option.eq_none_iff_forall_ne_some.2 hform, eq_ok_of_invalid hmodel,
          hreferences, eq_ok_of_invalid hcontained, rfl, not_not.1 hhash, rfl⟩
  · cases h

theorem ofText_of_accepted {text : String} {doc : Json} {l : Lock} (h : Accepted text doc l) :
    ofText text = .ok l := by
  have hmodel : invalid (modelOf doc) = .ok l.model := by rw [h.model]; rfl
  have hcontained : invalid l.model.checkContainment = .ok () := by rw [h.contained]; rfl
  have hhash : ¬l.hash ≠ l.model.hash := not_not.2 h.hash
  rw [ofText, h.read]
  simp only [h.form, hmodel, ok_bind, h.references, hcontained, h.stored, pure_eq_ok]
  rw [if_neg hhash, ← h.version]

/-! ### Models of locks -/

theorem names_of_mapM_messageOf {entries : List (String × Json)} {messages : List Message}
    (h : entries.mapM messageOf = .ok messages) :
    messages.map (·.name) = entries.map (·.1) := by
  refine (map_eq_of_forall₂ ((forall₂_of_mapM h).imp fun e spec he => ?_)).symm
  obtain ⟨fields, -, hret⟩ := bind_eq_ok_iff.1 he
  cases hret
  rfl

/-- The parts of the model of a document. -/
theorem of_modelOf (h : modelOf doc = .ok m) :
    (table "messages" doc).mapM messageOf = .ok m.messages ∧
      m.enums = (table "enums" doc).map enumOf ∧
      m.services = (table "services" doc).map serviceOf := by
  obtain ⟨messages, hmessages, hret⟩ := bind_eq_ok_iff.1 h
  cases hret
  exact ⟨hmessages, rfl, rfl⟩

/-- A lock's model has all that readers of models guarantee. -/
theorem sound_of_lock {text : String} {l : Lock} (h : ofText text = .ok l) : l.model.Sound := by
  obtain ⟨doc, hdoc⟩ := accepted_of_ofText h
  have htidy := Json.tidy_of_read? hdoc.read
  obtain ⟨hmessages, henums, hservices⟩ := of_modelOf hdoc.model
  obtain ⟨hclosed, hrequests⟩ := checkReferences_eq_ok_iff.1 hdoc.references
  refine ⟨?_, ?_, ?_, ?_, hclosed, hrequests, hdoc.contained⟩
  · rw [names_of_mapM_messageOf hmessages]
    exact nodup_table htidy "messages"
  · rw [henums, List.map_map]
    exact nodup_table htidy "enums"
  · rw [hservices, List.map_map]
    exact nodup_table htidy "services"
  · intro s hs
    rw [hservices] at hs
    obtain ⟨e, he, rfl⟩ := List.mem_map.1 hs
    rw [serviceOf, List.map_map]
    cases tidy_members (tidy_of_mem_table htidy he) with
    | obj nodup each => exact nodup

/-- An enumeration of a lock has no more variants than the text has characters, and one. -/
theorem length_variants_le_of_lock {text : String} {l : Lock} (h : ofText text = .ok l)
    {spec : Enumeration} (hspec : spec ∈ l.model.enums) :
    spec.variants.length ≤ text.length + 1 := by
  obtain ⟨doc, hdoc⟩ := accepted_of_ofText h
  have htidy := Json.tidy_of_read? hdoc.read
  rw [(of_modelOf hdoc.model).2.1] at hspec
  obtain ⟨e, he, rfl⟩ := List.mem_map.1 hspec
  exact (List.length_filterMap_le ..).trans (length_items_le (tidy_of_mem_table htidy he))

end FeltRelay.Schema.Lock
