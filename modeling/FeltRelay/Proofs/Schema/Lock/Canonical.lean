import FeltRelay.Proofs.Codec.ByteArray
import FeltRelay.Proofs.Schema.Identity
import FeltRelay.Proofs.Schema.Lock.RoundTrip
import FeltRelay.Proofs.Text.Utf8
import Mathlib.Tactic.NormNum.Basic
import Mathlib.Tactic.NormNum.Pow

/-!
# Canonical texts and their hashes

Two sound models have the same canonical bytes if and only if they declare the same
(`encode_canonicalText_eq_iff`): the text is read back as the document, and the document leads back
to the model in order of names. The element of a model's hash (`hashElement?_hash`) has at most 31
bytes, and two models have one element only if their digests begin with the same 31 bytes
(`element_eq_iff`).
-/

namespace FeltRelay.Schema

namespace Model

variable {m n : Model}

/-- The members of the document that is hashed, in order of their names. -/
def canonicalMembers (m : Model) : List (String × Json) :=
  Entries.erase "schema_hash" (m.lockMembers "")

theorem sorted_obj_document (m : Model) :
    (Json.obj m.document).sorted = .obj m.ordered.canonicalMembers := by
  rw [document, Json.sorted, Json.sortedMembers, Json.sortedMembers, Json.sortedMembers,
    sorted_messages, Json.sortedMembers, sorted_enums, Json.sortedMembers, sorted_services,
    sorted_package]
  simp [Json.sorted, Json.sortedMembers, Entries.sorted, Entries.insertSorted, Entries.erase,
    canonicalMembers, lockMembers]

/-- The members of a lock document are those that are hashed, and the hash. -/
theorem lockMembers_eq_insertSorted (m : Model) (hash : String) :
    m.lockMembers hash = Entries.insertSorted ("schema_hash", .str hash) m.canonicalMembers := by
  simp [canonicalMembers, lockMembers, Entries.erase, Entries.insertSorted]

theorem eq_of_canonicalMembers_eq (h : m.canonicalMembers = n.canonicalMembers) : m = n := by
  have hm := Lock.modelOf_lockMembers m ""
  have hn := Lock.modelOf_lockMembers n ""
  rw [lockMembers_eq_insertSorted, h, ← lockMembers_eq_insertSorted] at hm
  exact Except.ok.inj (hm.symm.trans hn)

theorem plain_obj_document (h : m.Sound) : (Json.obj m.document).Plain :=
  .obj (by simp [Entries.keys, document]) fun _ he => plain_of_mem_document h he

/-- The canonical text is read back as the document. -/
theorem read?_canonicalText (h : m.Sound) :
    Json.read? m.canonicalText = some (.obj m.ordered.canonicalMembers) := by
  have hplain := (plain_obj_document h).sorted
  have hgap : ∀ c ∈ "".toList, Json.isGap c = true := fun c hc => absurd hc List.not_mem_nil
  have hread := Json.read?_write_append Json.regular_canonical hplain hgap
  rw [String.append_empty] at hread
  rw [canonicalText, hread, sorted_obj_document]

theorem canonicalText_eq_iff (hm : m.Sound) (hn : n.Sound) :
    m.canonicalText = n.canonicalText ↔ m.ordered = n.ordered := by
  constructor
  · intro h
    have hread := read?_canonicalText hm
    rw [h, read?_canonicalText hn] at hread
    exact eq_of_canonicalMembers_eq (Json.obj.inj (Option.some.inj hread)).symm
  · intro h
    rw [← canonicalText_ordered m, h, canonicalText_ordered]

/-- The bytes that are hashed are the same if and only if the models declare the same. -/
theorem encode_canonicalText_eq_iff (hm : m.Sound) (hn : n.Sound) :
    Text.Utf8.encode m.canonicalText = Text.Utf8.encode n.canonicalText ↔ m.same n = true := by
  rw [same_iff_ordered_eq hm hn, ← canonicalText_eq_iff hm hn]
  constructor
  · intro h
    have hdecode := Text.Utf8.decode?_encode m.canonicalText
    rw [h, Text.Utf8.decode?_encode] at hdecode
    exact (Option.some.inj hdecode).symm
  · intro h
    rw [h]

end Model

/-! ### Hashes as field elements -/

/-- What a field element holds of the digest of a document: the first 31 bytes. -/
def shortDigest (document : List UInt8) : List UInt8 := (Digest.Sha3.sum256 document).take 31

theorem length_shortDigest (document : List UInt8) : (shortDigest document).length = 31 := by
  rw [shortDigest, List.length_take, Lock.length_sum256]
  rfl

theorem bigEndian_eq_wordValue (bytes : List UInt8) : bigEndian bytes = Codec.wordValue bytes := rfl

namespace Model

/-- The bytes that are hashed. -/
def canonicalBytes (m : Model) : List UInt8 := Text.Utf8.encode m.canonicalText

/-- The element that generated code carries for a model. -/
def element (m : Model) : Nat := bigEndian (shortDigest m.canonicalBytes)

variable {m n : Model}

theorem hashElement?_hash : hashElement? m.hash = some m.element := by
  have hmark : m.hash.toList = '0' :: 'x' ::
      (Digest.Sha3.sum256 m.canonicalBytes).flatMap Text.Hex.digits := by
    have htext := String.toList_ofList
      (l := (Digest.Sha3.sum256 m.canonicalBytes).flatMap Text.Hex.digits)
    rw [hash, String.toList_append]
    exact congrArg (['0', 'x'] ++ ·) htext
  have hprefix : ['0', 'x'].isPrefixOf m.hash.toList = true := by
    rw [hmark]
    rfl
  simp only [hashElement?, hprefix, if_true]
  rw [hmark, List.drop_succ_cons, List.drop_succ_cons, List.drop_zero,
    Text.Hex.decode?_flatMap_digits]
  rfl

theorem element_lt (m : Model) : m.element < 16 ^ 62 := by
  have hlt := Codec.wordValue_lt (shortDigest m.canonicalBytes)
  rw [length_shortDigest, show 256 ^ 31 = 16 ^ 62 by norm_num] at hlt
  rwa [element, bigEndian_eq_wordValue]

theorem element_eq_iff :
    m.element = n.element ↔ shortDigest m.canonicalBytes = shortDigest n.canonicalBytes := by
  constructor
  · intro h
    have hm := Codec.wordDigits_wordValue (shortDigest m.canonicalBytes)
    have hn := Codec.wordDigits_wordValue (shortDigest n.canonicalBytes)
    rw [length_shortDigest] at hm hn
    rw [element, element, bigEndian_eq_wordValue, bigEndian_eq_wordValue] at h
    rw [← hm, ← hn, h]
  · intro h
    rw [element, h, element]

end Model

end FeltRelay.Schema
