import FeltRelay.Proofs.Schema.Lock.Document
import FeltRelay.Proofs.Schema.Text

/-!
# Locks read back

The text of a lock of a sound model is accepted and gives the model in order of names
(`ofText_text`). Readers give sound models only, so every model survives its lock, and every lock
that was read can be written and read again (`survives`).
-/

namespace FeltRelay.Schema

namespace Model

/-! ### Documents without floating-point numbers -/

theorem plain_descriptor (t : Ty) : t.descriptor.Plain := by
  have hone : ∀ (tag : String) {v : Json}, v.Plain → (Json.obj [(tag, v)]).Plain := by
    intro tag v hv
    refine .obj (List.nodup_singleton tag) fun e he => ?_
    cases List.mem_singleton.1 he
    exact hv
  induction t with
  | scalar s => exact hone "scalar" (.str _)
  | message name => exact hone "message" (.str _)
  | enum name => exact hone "enum" (.str _)
  | optional t ih => exact hone "optional" ih
  | array t ih => exact hone "array" ih

theorem plain_fieldDocument (f : Field) : (fieldDocument f).Plain := by
  refine .obj (by simp [Entries.keys]) fun e he => ?_
  simp only [List.mem_cons, List.not_mem_nil, or_false] at he
  rcases he with rfl | rfl
  · exact .str f.name
  · exact plain_descriptor f.type

theorem plain_methodDocument (x : Method) : (methodDocument x).Plain := by
  refine .obj (by simp [Entries.keys]) fun e he => ?_
  simp only [List.mem_cons, List.not_mem_nil, or_false] at he
  rcases he with rfl | rfl | rfl | rfl
  all_goals exact .str _

theorem plain_strings (texts : List String) : (Json.strings texts).Plain := by
  refine .arr fun v hv => ?_
  obtain ⟨s, -, rfl⟩ := List.mem_map.1 hv
  exact .str s

theorem plain_optional (text : Option String) : (Json.optional text).Plain := by
  cases text with
  | none => exact .null
  | some s => exact .str s

/-- An object whose members stand for declarations with distinct keys. -/
theorem plain_obj_keyed {α : Type} {key : α → String} {f : α → Json} {xs : List α}
    (hkeys : (xs.map key).Nodup) (h : ∀ x ∈ xs, (f x).Plain) :
    (Json.obj (xs.map fun x => (key x, f x))).Plain := by
  refine .obj ?_ fun e he => ?_
  · rw [Entries.keys, List.map_map]
    exact hkeys
  · obtain ⟨x, hx, rfl⟩ := List.mem_map.1 he
    exact h x hx

theorem plain_of_mem_document {m : Model} (h : m.Sound) {e : String × Json}
    (he : e ∈ m.document) : e.2.Plain := by
  simp only [document, List.mem_cons, List.not_mem_nil, or_false] at he
  rcases he with rfl | rfl | rfl | rfl | rfl
  · exact .int _
  · exact plain_optional _
  · refine plain_obj_keyed h.messages fun s _ => .arr fun v hv => ?_
    obtain ⟨f, -, rfl⟩ := List.mem_map.1 hv
    exact plain_fieldDocument f
  · exact plain_obj_keyed h.enums fun e _ => plain_strings _
  · exact plain_obj_keyed h.services fun s hs =>
      plain_obj_keyed (h.methods s hs) fun x _ => plain_methodDocument x

theorem plain_document {m : Model} (h : m.Sound) (hash : String) :
    (Json.obj (Entries.put "schema_hash" (.str hash) m.document)).Plain := by
  have hput : Entries.put "schema_hash" (.str hash) m.document =
      m.document ++ [("schema_hash", .str hash)] := rfl
  rw [hput]
  refine .obj (by simp [Entries.keys, document]) fun e he => ?_
  rcases List.mem_append.1 he with he | he
  · exact plain_of_mem_document h he
  · cases List.mem_singleton.1 he
    exact .str hash

end Model

namespace Lock

variable {l : Lock}

theorem read?_text (h : l.model.Sound) :
    Json.read? l.text = some (.obj (l.model.ordered.lockMembers l.hash)) := by
  have hplain := (Model.plain_document h l.hash).sorted
  have hgap : ∀ c ∈ "\n".toList, Json.isGap c = true := by
    intro c hc
    rw [List.mem_singleton.1 hc]
    rfl
  rw [Model.sorted_document] at hplain
  rw [text, Model.sorted_document]
  exact Json.read?_write_append Json.regular_indented hplain hgap

/-- The text of a lock is accepted and gives the model in order of names with the same hash. -/
theorem ofText_text (h : l.model.Sound) (hhash : l.hash = l.model.hash) :
    ofText l.text = .ok ⟨l.model.ordered, l.hash, .int lockVersion⟩ := by
  -- The reader hashes the model in the order of the document, which changes nothing.
  have hsame : l.hash = l.model.ordered.hash := hhash.trans (Model.hash_ordered _).symm
  have hform : isHash l.hash = true := hhash ▸ isHash_hash l.model
  have hordered := h.ordered
  refine ofText_of_accepted ⟨read?_text h, ?_, modelOf_lockMembers _ _, ?_, hordered.contained, rfl,
    hsame, rfl⟩
  · rw [faults_lockMembers _ hform]
    rfl
  · exact checkReferences_eq_ok_iff.2 ⟨hordered.closed, hordered.requests⟩

/-- The lock that is read back is written as the same text. -/
theorem text_ordered (version : Json) : text ⟨l.model.ordered, l.hash, version⟩ = l.text := by
  rw [text, text, Model.sorted_document, Model.sorted_document, Model.ordered_ordered]

/-- A model of a definitions text survives its lock: the text of the lock is accepted, and the lock
read from it declares the same, has the same hash and the same text. So does every lock that is
accepted. -/
theorem survives :
    (∀ definitions m, Model.ofText definitions = .ok m →
      ∃ l, ofText m.lock.text = .ok l ∧ l.model.same m = true ∧ l.hash = m.lock.hash ∧
        l.text = m.lock.text) ∧
    ∀ text l, ofText text = .ok l →
      ∃ l', ofText l.text = .ok l' ∧ l'.model.same l.model = true ∧ l'.hash = l.hash ∧
        l'.text = l.text := by
  constructor
  · intro definitions m hm
    have hsound : m.lock.model.Sound := Model.ReadFrom.sound (.definitions hm)
    exact ⟨_, ofText_text hsound rfl, Model.same_ordered m, rfl, text_ordered _⟩
  · intro text l hl
    obtain ⟨doc, hdoc⟩ := accepted_of_ofText hl
    exact ⟨_, ofText_text (sound_of_lock hl) hdoc.hash, Model.same_ordered l.model, rfl,
      text_ordered _⟩

/-- The lock of `Model.canvas` is read back, and so is the lock that was read. -/
theorem survives_canvas : ∃ l l', ofText Model.canvas.lock.text = .ok l ∧ ofText l.text = .ok l' ∧
    l'.model.same l.model = true ∧ l'.hash = Model.canvas.hash := by
  obtain ⟨l, hl, -, hhash, -⟩ := survives.1 Model.canvasText Model.canvas Model.ofText_canvasText
  obtain ⟨l', hl', hsame, hhash', -⟩ := survives.2 _ l hl
  exact ⟨l, l', hl, hl', hsame, hhash'.trans hhash⟩

end Lock

end FeltRelay.Schema
