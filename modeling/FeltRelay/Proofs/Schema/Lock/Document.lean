import FeltRelay.Proofs.Json.Sorted
import FeltRelay.Proofs.Schema.Lock.Reader
import FeltRelay.Proofs.Schema.Ordered
import FeltRelay.Proofs.Text.Hex

/-!
# Documents of locks

The document of a lock is that of its model in order of names (`sorted_document`). It has the form
of a lock (`faults_lockMembers`), and leads back to the model in that order (`modelOf_lockMembers`),
which declares the same as the model and has the same hash.
-/

namespace FeltRelay.Schema

open Entries (arranged)

namespace Model

/-- The members of a lock document in order of their names. -/
def lockMembers (m : Model) (hash : String) : List (String × Json) :=
  [("enums", .obj (m.enums.map fun e => (e.name, .strings e.variants))),
    ("messages", .obj (m.messages.map fun s => (s.name, .arr (s.fields.map fieldDocument)))),
    ("package", .optional m.package), ("schema_hash", .str hash),
    ("services", .obj (m.services.map fun s =>
      (s.name, .obj (s.methods.map fun x => (x.name, (methodDocument x).sorted))))),
    ("version", .int lockVersion)]

variable (m : Model)

/-! ### Sorting a document -/

theorem sorted_descriptor (t : Ty) : t.descriptor.sorted = t.descriptor := by
  induction t with
  | scalar s => rfl
  | message name => rfl
  | enum name => rfl
  | optional t ih =>
    rw [Ty.descriptor, Json.sorted, Json.sortedMembers, ih]
    rfl
  | array t ih =>
    rw [Ty.descriptor, Json.sorted, Json.sortedMembers, ih]
    rfl

theorem sorted_fieldDocument (f : Field) : (fieldDocument f).sorted = fieldDocument f := by
  simp [fieldDocument, Json.sorted, Json.sortedMembers, sorted_descriptor, Entries.sorted,
    Entries.insertSorted]

theorem sorted_methodDocument (x : Method) : (methodDocument x).sorted =
    .obj [("path", x.path), ("request", x.request), ("response", x.response),
      ("selector", x.selector)] := by
  simp [methodDocument, Json.sorted, Json.sortedMembers, Entries.sorted, Entries.insertSorted]

theorem sorted_fields (fields : List Field) :
    (Json.arr (fields.map fieldDocument)).sorted = .arr (fields.map fieldDocument) := by
  refine Json.sorted_arr_of_fixed fun v hv => ?_
  obtain ⟨f, -, rfl⟩ := List.mem_map.1 hv
  exact sorted_fieldDocument f

theorem sorted_strings (texts : List String) : (Json.strings texts).sorted = .strings texts := by
  refine Json.sorted_arr_of_fixed fun v hv => ?_
  obtain ⟨s, -, rfl⟩ := List.mem_map.1 hv
  rfl

theorem sorted_package : (Json.optional m.package).sorted = .optional m.ordered.package := by
  rw [ordered]
  cases m.package with
  | none => rfl
  | some s => rfl

theorem sorted_messages :
    (Json.obj (m.messages.map fun s => (s.name, .arr (s.fields.map fieldDocument)))).sorted =
      .obj (m.ordered.messages.map fun s => (s.name, .arr (s.fields.map fieldDocument))) := by
  rw [Json.sorted_obj_keyed]
  simp only [sorted_fields]
  rfl

theorem sorted_enums : (Json.obj (m.enums.map fun e => (e.name, .strings e.variants))).sorted =
    .obj (m.ordered.enums.map fun e => (e.name, .strings e.variants)) := by
  rw [Json.sorted_obj_keyed]
  simp only [sorted_strings]
  rfl

theorem sorted_services :
    (Json.obj (m.services.map fun s =>
      (s.name, .obj (s.methods.map fun x => (x.name, methodDocument x))))).sorted =
      .obj (m.ordered.services.map fun s =>
        (s.name, .obj (s.methods.map fun x => (x.name, (methodDocument x).sorted)))) := by
  have hordered : m.ordered.services = (arranged (·.name) m.services).map Service.ordered :=
    Entries.arranged_map (fun s : Service => s.name) (f := Service.ordered) (fun _ => rfl) _
  rw [Json.sorted_obj_keyed, hordered, List.map_map]
  simp only [Json.sorted_obj_keyed]
  rfl

/-- The document of a lock is that of the ordered model, member by member. -/
theorem sorted_document (hash : String) :
    (Json.obj (Entries.put "schema_hash" (.str hash) m.document)).sorted =
      .obj (m.ordered.lockMembers hash) := by
  have hput : Entries.put "schema_hash" (.str hash) m.document =
      m.document ++ [("schema_hash", .str hash)] := rfl
  rw [hput, document]
  -- Each member first, then the six names.
  rw [Json.sorted, Json.sortedMembers_append, Json.sortedMembers, Json.sortedMembers,
    Json.sortedMembers, sorted_messages, Json.sortedMembers, sorted_enums, Json.sortedMembers,
    sorted_services, sorted_package]
  simp [Json.sorted, Json.sortedMembers, Entries.sorted, Entries.insertSorted, lockMembers]

/-! ### Ordering twice -/

/-- Ordering a model leaves its sorted members as they are. -/
theorem sortedMembers_document_ordered :
    Json.sortedMembers m.ordered.document = Json.sortedMembers m.document := by
  simp only [document, Json.sortedMembers, sorted_messages, sorted_enums, sorted_services,
    sorted_package, ordered_ordered]

theorem canonicalText_ordered : m.ordered.canonicalText = m.canonicalText := by
  rw [canonicalText, canonicalText, Json.sorted, Json.sorted, sortedMembers_document_ordered]

theorem hash_ordered : m.ordered.hash = m.hash := by
  rw [hash, hash, canonicalText_ordered]

end Model

namespace Lock

open Model (lockMembers fieldDocument methodDocument)

variable (m : Model)

/-! ### The form of a document -/

theorem descriptorFaults_descriptor (t : Ty) : descriptorFaults t.descriptor = [] := by
  induction t with
  | scalar s => simp [Ty.descriptor, descriptorFaults, textFaults]
  | message name => simp [Ty.descriptor, descriptorFaults, textFaults]
  | enum name => simp [Ty.descriptor, descriptorFaults, textFaults]
  | optional t ih => simp [Ty.descriptor, descriptorFaults, ih]
  | array t ih => simp [Ty.descriptor, descriptorFaults, ih]

theorem fieldFaults_fieldDocument (f : Field) : fieldFaults (fieldDocument f) = [] := by
  simp [fieldDocument, fieldFaults, nameFaults, memberFaults, textFaults, Entries.has,
    List.lookup_cons, descriptorFaults_descriptor]

theorem methodFaults_methodDocument (x : Method) : methodFaults (methodDocument x).sorted = [] := by
  simp [Model.sorted_methodDocument, methodFaults, methodMembers, nameFaults, memberFaults,
    textFaults, Entries.has, List.lookup_cons]

theorem itemFaults_eq_nil {faults : Json → List (List Step)} {items : List Json}
    (h : ∀ v ∈ items, faults v = []) : itemFaults faults items = [] := by
  refine List.flatMap_eq_nil_iff.2 fun e he => ?_
  exact List.map_eq_nil_iff.2 (h e.1 (List.fst_mem_of_mem_zipIdx he))

theorem tableFaults_eq_nil {α : Type} {faults : Json → List (List Step)} {key : α → String}
    {f : α → Json} {xs : List α} (h : ∀ x ∈ xs, faults (f x) = []) :
    tableFaults faults (.obj (xs.map fun x => (key x, f x))) = [] := by
  refine List.flatMap_eq_nil_iff.2 fun e he => ?_
  obtain ⟨x, hx, rfl⟩ := List.mem_map.1 he
  exact List.map_eq_nil_iff.2 (h x hx)

/-- The document has the form of a lock if its hash has that of one. -/
theorem faults_lockMembers {hash : String} (h : isHash hash = true) :
    faults (.obj (m.lockMembers hash)) = [] := by
  have hmessages : tableFaults messageFaults
      (.obj (m.messages.map fun s => (s.name, .arr (s.fields.map fieldDocument)))) = [] := by
    refine tableFaults_eq_nil fun s _ => itemFaults_eq_nil fun v hv => ?_
    obtain ⟨f, -, rfl⟩ := List.mem_map.1 hv
    exact fieldFaults_fieldDocument f
  have henums : tableFaults enumFaults
      (.obj (m.enums.map fun e => (e.name, .strings e.variants))) = [] := by
    refine tableFaults_eq_nil fun e _ => itemFaults_eq_nil fun v hv => ?_
    obtain ⟨s, -, rfl⟩ := List.mem_map.1 hv
    rfl
  have hservices : tableFaults (tableFaults methodFaults) (.obj (m.services.map fun s =>
      (s.name, .obj (s.methods.map fun x => (x.name, (methodDocument x).sorted))))) = [] :=
    tableFaults_eq_nil fun s _ => tableFaults_eq_nil fun x _ => methodFaults_methodDocument x
  have hpackage : packageFaults (.optional m.package) = [] := by
    cases m.package with
    | none => rfl
    | some s => rfl
  simp [faults, lockMembers, nameFaults, requiredMembers, memberFaults, Entries.has,
    List.lookup_cons, versionFaults, hashFaults, h, hmessages, henums, hservices, hpackage]

/-! ### The model of a document -/

theorem fieldOf_fieldDocument (f : Field) : fieldOf (fieldDocument f) = .ok f := by
  have hname : textAt "name" (fieldDocument f) = f.name := rfl
  have htype : (fieldDocument f).member? "type" = some f.type.descriptor := rfl
  rw [fieldOf, htype, hname]
  simp [Ty.ofDescriptor_descriptor]

theorem messageOf_document (s : Message) :
    messageOf (s.name, .arr (s.fields.map fieldDocument)) = .ok s := by
  have hfields : (items (.arr (s.fields.map fieldDocument))).mapM fieldOf = .ok s.fields := by
    refine mapM_of_forall₂ (List.forall₂_map_left_iff.2 (List.forall₂_same.2 fun f _ => ?_))
    exact fieldOf_fieldDocument f
  rw [messageOf, hfields]
  rfl

theorem enumOf_document (e : Enumeration) : enumOf (e.name, .strings e.variants) = e := by
  simp [enumOf, Json.strings, items, List.filterMap_map]

theorem methodOf_document (x : Method) : methodOf (x.name, (methodDocument x).sorted) = x := by
  simp [Model.sorted_methodDocument, methodOf, textAt, Json.member?, Json.members,
    List.lookup_cons]

theorem serviceOf_document (s : Service) : serviceOf
    (s.name, .obj (s.methods.map fun x => (x.name, (methodDocument x).sorted))) = s := by
  simp [serviceOf, Json.members, Function.comp_def, methodOf_document]

/-- The document leads back to its model. -/
theorem modelOf_lockMembers (hash : String) : modelOf (.obj (m.lockMembers hash)) = .ok m := by
  have hmessages : (table "messages" (.obj (m.lockMembers hash))).mapM messageOf =
      .ok m.messages := by
    refine mapM_of_forall₂ (List.forall₂_map_left_iff.2 (List.forall₂_same.2 fun s _ => ?_))
    exact messageOf_document s
  have henums : (table "enums" (.obj (m.lockMembers hash))).map enumOf = m.enums := by
    refine (List.map_map ..).trans ?_
    simp [Function.comp_def, enumOf_document]
  have hservices : (table "services" (.obj (m.lockMembers hash))).map serviceOf = m.services := by
    refine (List.map_map ..).trans ?_
    simp [Function.comp_def, serviceOf_document]
  have hpackage : (Json.obj (m.lockMembers hash)).member? "package" = some (.optional m.package) :=
    rfl
  rw [modelOf, hmessages, henums, hservices, hpackage]
  obtain ⟨package, messages, enums, services⟩ := m
  cases package with
  | none => rfl
  | some s => rfl

/-! ### The hash of a model -/

theorem length_sum256 (bytes : List UInt8) : (Digest.Sha3.sum256 bytes).length = 32 := by
  simp [Digest.Sha3.sum256, Digest.Sha3.bytesOf]

theorem isHexDigit_of_mem_digits {b : UInt8} {c : Char} (h : c ∈ Text.Hex.digits b) :
    (Text.isHexDigit c && !c.isUpper) = true := by
  have hb : b.toNat < 256 := b.toNat_lt
  have small : ∀ k < 16,
      (Text.isHexDigit (Text.digitChar k) && !(Text.digitChar k).isUpper) = true := by
    decide
  simp only [Text.Hex.digits, List.mem_cons, List.not_mem_nil, or_false] at h
  rcases h with rfl | rfl
  · exact small _ (by omega)
  · exact small _ (by omega)

/-- The hash of a model has the form of a hash. -/
theorem isHash_hash : isHash m.hash = true := by
  obtain ⟨bytes, hbytes⟩ : ∃ bytes, bytes =
      Digest.Sha3.sum256 (Text.Utf8.encode m.canonicalText) := ⟨_, rfl⟩
  have hencode : (Text.Hex.encode bytes).toList = bytes.flatMap Text.Hex.digits :=
    String.toList_ofList
  have htext : m.hash.toList = '0' :: 'x' :: bytes.flatMap Text.Hex.digits := by
    rw [Model.hash, String.toList_append, ← hbytes, hencode]
    rfl
  have hlen : (bytes.flatMap Text.Hex.digits).length = 64 := by
    rw [Text.Hex.length_flatMap_digits, hbytes, length_sum256]
  have hall : ∀ c ∈ bytes.flatMap Text.Hex.digits, (Text.isHexDigit c && !c.isUpper) = true := by
    intro c hc
    obtain ⟨b, -, hb⟩ := List.mem_flatMap.1 hc
    exact isHexDigit_of_mem_digits hb
  have htake := List.take_of_length_le (Nat.le_of_eq hlen)
  have hdrop := List.drop_of_length_le (Nat.le_of_eq hlen)
  simp only [isHash, htext, htake, hdrop, hlen, List.all_eq_true.2 hall]
  rfl

end Lock

end FeltRelay.Schema
