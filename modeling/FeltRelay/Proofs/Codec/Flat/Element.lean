import FeltRelay.Codec.Flat.Decode
import FeltRelay.Proofs.Codec.ByteString
import FeltRelay.Proofs.Codec.Element
import FeltRelay.Proofs.Codec.Input

/-!
# Elements of a flat sequence

An element of the field is read from its place, and what was read is such an element. The same
holds of the elements of a byte string.
-/

namespace FeltRelay.Codec

open FeltRelay.Schema FeltRelay.Text

/-- A natural number as an item of a sequence. -/
def item (n : Nat) : Json := .int n

namespace Flat

variable {modulus : Int}

/-! ### One element -/

theorem run_takeElement_cons (what : String) (e : Json) (rest : List Json) (position : Nat) :
    (takeElement modulus what).run ⟨e :: rest, position⟩ =
      (checkElement modulus position e).map fun n => (n, ⟨rest, position + 1⟩) := by
  cases h : checkElement modulus position e
  all_goals
    simp only [takeElement, StateT.run_bind, StateT.run_get, pure_eq_ok, ok_bind, run_liftM, h]
    rfl

theorem reads_takeElement {n : Nat} (h : (n : Int) < modulus) (what : String) :
    Reads (takeElement modulus what) [item n] n := by
  intro rest position
  have hcheck : checkElement modulus position (item n) = .ok n :=
    checkElement_int _ (Int.natCast_nonneg n) h
  rw [List.singleton_append, run_takeElement_cons, hcheck]
  rfl

theorem consumed_of_takeElement {what : String} {s s' : Input} {n : Nat}
    (h : (takeElement modulus what).run s = .ok (n, s')) :
    Consumed s [item n] s' ∧ (n : Int) < modulus := by
  obtain ⟨rest, position⟩ := s
  cases rest with
  | nil => cases h
  | cons e rest =>
    rw [run_takeElement_cons] at h
    obtain ⟨k, hcheck, hpair⟩ := map_eq_ok_iff.1 h
    cases hpair
    obtain ⟨rfl, hlt⟩ := checkElement_eq_ok hcheck
    exact ⟨⟨rfl, rfl⟩, hlt⟩

/-! ### Elements of a byte string -/

theorem checkElements_items (position : Nat) {ns : List Nat} (h : ∀ n ∈ ns, (n : Int) < modulus) :
    checkElements modulus position (ns.map item) = .ok ns := by
  induction ns generalizing position with
  | nil => rfl
  | cons n ns ih =>
    have hcheck : checkElement modulus position (item n) = .ok n :=
      checkElement_int _ (Int.natCast_nonneg n) (h n (List.mem_cons_self ..))
    have hrest := ih (position + 1) fun k hk => h k (List.mem_cons_of_mem _ hk)
    rw [List.map_cons, checkElements, hcheck, ok_bind, hrest]
    rfl

theorem eq_items_of_checkElements {position : Nat} {items : List Json} {ns : List Nat}
    (h : checkElements modulus position items = .ok ns) : items = ns.map item := by
  induction items generalizing position ns with
  | nil =>
    cases h
    rfl
  | cons e items ih =>
    obtain ⟨n, hcheck, hrest⟩ := bind_eq_ok_iff.1 h
    obtain ⟨ns', hns, hret⟩ := bind_eq_ok_iff.1 hrest
    cases hret
    rw [(checkElement_eq_ok hcheck).1, ih hns]
    rfl

/-- The steps of reading a byte string. -/
theorem run_decodeBytes (kind : Scalar) (s : Input) :
    (decodeBytes modulus kind).run s = (do
      let (count, s₁) ← (takeElement modulus "ByteArray word count").run s
      let words ← checkElements modulus s₁.position (s₁.rest.take (count + 2))
      let (bytes, _) ← unpackBytes s.position (count :: words)
      let text ← textOfBytes kind s.position bytes
      return (.str text, s₁.advance (count + 2))) := by
  simp only [decodeBytes, StateT.run_bind, StateT.run_get, pure_eq_ok, ok_bind, run_liftM]
  refine bind_congr fun (count, s₁) => ?_
  cases checkElements modulus s₁.position (s₁.rest.take (count + 2)) with
  | error f => rfl
  | ok words =>
    simp only [map_ok, ok_bind]
    cases unpackBytes s.position (count :: words) with
    | error f => rfl
    | ok r =>
      simp only [map_ok, ok_bind, StateT.run_set, pure_eq_ok]
      cases textOfBytes kind s.position r.1 with
      | error f => rfl
      | ok text => rfl

/-- A byte string is read from its elements. -/
theorem reads_decodeBytes {kind : Scalar} {bytes : List UInt8} {text : String}
    (helem : ∀ n ∈ packBytes bytes, (n : Int) < modulus)
    (htext : ∀ offset, textOfBytes kind offset bytes = .ok text) :
    Reads (decodeBytes modulus kind) ((packBytes bytes).map item) (.str text) := by
  obtain ⟨words, hpack, hlen⟩ := packBytes_eq bytes
  have hback := fun offset => unpackBytes_packBytes offset bytes []
  rw [hpack] at helem hback ⊢
  intro rest position
  have hhead := reads_takeElement (helem _ (List.mem_cons_self ..)) "ByteArray word count"
    (words.map item ++ rest) position
  have hwords := checkElements_items (position + 1) fun n hn => helem n (List.mem_cons_of_mem _ hn)
  have htake : (words.map item ++ rest).take (bytes.length / wordBytes + 2) = words.map item :=
    List.take_left' (by rw [List.length_map, hlen])
  have hdrop : (words.map item ++ rest).drop (bytes.length / wordBytes + 2) = rest :=
    List.drop_left' (by rw [List.length_map, hlen])
  have hunpack := hback position
  rw [List.append_nil] at hunpack
  rw [List.singleton_append, List.length_singleton] at hhead
  rw [run_decodeBytes, List.map_cons, List.cons_append, hhead, ok_bind]
  simp only [htake, hwords, ok_bind, hunpack, htext, Input.advance, hdrop, pure_eq_ok,
    List.length_cons, List.length_map, hlen]
  rw [Nat.add_assoc, Nat.add_comm 1]

/-- A byte string that was read has the elements that it was read from. -/
theorem consumed_of_decodeBytes {kind : Scalar} {s s' : Input} {v : Json}
    (h : (decodeBytes modulus kind).run s = .ok (v, s')) :
    ∃ bytes text, v = .str text ∧ textOfBytes kind s.position bytes = .ok text ∧
      Consumed s ((packBytes bytes).map item) s' := by
  rw [run_decodeBytes] at h
  obtain ⟨⟨count, s₁⟩, hhead, h⟩ := bind_eq_ok_iff.1 h
  obtain ⟨words, hwords, h⟩ := bind_eq_ok_iff.1 h
  obtain ⟨⟨bytes, left⟩, hunpack, h⟩ := bind_eq_ok_iff.1 h
  obtain ⟨text, htext, hret⟩ := bind_eq_ok_iff.1 h
  cases hret
  obtain ⟨tail, hpack, htail⟩ := packBytes_eq bytes
  have hitems := eq_items_of_checkElements hwords
  have hlen : words.length ≤ count + 2 := by
    rw [← List.length_map (f := item), ← hitems]
    exact List.length_take_le ..
  have heq := eq_packBytes_of_unpackBytes hunpack
  rw [hpack, List.cons_append, List.cons.injEq] at heq
  obtain ⟨rfl, rfl⟩ := heq
  rw [List.length_append, htail] at hlen
  have hnil : left = [] := List.length_eq_zero_iff.1 (by omega)
  rw [hnil, List.append_nil] at hitems
  refine ⟨bytes, text, rfl, htext, ?_⟩
  rw [hpack, List.map_cons]
  refine (consumed_of_takeElement hhead).1.trans ⟨?_, ?_⟩
  · rw [← hitems]
    exact (List.take_append_drop ..).symm
  · rw [List.length_map, htail]
    rfl

end Flat

end FeltRelay.Codec
