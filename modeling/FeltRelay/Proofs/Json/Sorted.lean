import FeltRelay.Proofs.Entries.Sorted
import FeltRelay.Proofs.Json.RoundTrip

/-!
# JSON values with sorted members

Sorting reaches every item and every member, and a value without floating-point numbers stays one.
An object whose members stand for declarations is sorted by arranging the declarations.
-/

namespace FeltRelay.Json

theorem sortedItems_eq_map (items : List Json) : sortedItems items = items.map sorted := by
  induction items with
  | nil => rfl
  | cons v items ih => rw [sortedItems, ih, List.map_cons]

theorem sortedMembers_eq_map (ms : List (String × Json)) :
    sortedMembers ms = ms.map fun e => (e.1, e.2.sorted) := by
  induction ms with
  | nil => rfl
  | cons e ms ih => rw [sortedMembers, ih, List.map_cons]

theorem sortedMembers_append (ms ms' : List (String × Json)) :
    sortedMembers (ms ++ ms') = sortedMembers ms ++ sortedMembers ms' := by
  simp only [sortedMembers_eq_map, List.map_append]

theorem sorted_arr_of_fixed {items : List Json} (h : ∀ v ∈ items, v.sorted = v) :
    (Json.arr items).sorted = .arr items := by
  rw [sorted, sortedItems_eq_map, List.map_congr_left h, List.map_id']

/-- Members that stand for declarations come in the order of the declarations' keys. -/
theorem sorted_obj_keyed {α : Type} (key : α → String) (f : α → Json) (xs : List α) :
    (Json.obj (xs.map fun x => (key x, f x))).sorted =
      .obj ((Entries.arranged key xs).map fun x => (key x, (f x).sorted)) := by
  rw [sorted, sortedMembers_eq_map, List.map_map]
  exact congrArg Json.obj (Entries.sorted_map_keyed key (fun x => (f x).sorted) xs)

theorem Plain.sorted {v : Json} (h : Plain v) : Plain v.sorted := by
  induction h with
  | null => exact .null
  | bool b => exact .bool b
  | int i => exact .int i
  | str s => exact .str s
  | arr each ih =>
    rw [Json.sorted, sortedItems_eq_map]
    refine .arr fun v hv => ?_
    obtain ⟨w, hw, rfl⟩ := List.mem_map.1 hv
    exact ih w hw
  | @obj ms nodup each ih =>
    rw [Json.sorted, sortedMembers_eq_map]
    refine .obj ((Entries.perm_keys_sorted _).nodup_iff.2 ?_) fun e he => ?_
    · rw [Entries.keys, List.map_map]
      exact nodup
    · obtain ⟨e', he', rfl⟩ := List.mem_map.1 ((Entries.perm_sorted _).mem_iff.1 he)
      exact ih e' he'

end FeltRelay.Json
