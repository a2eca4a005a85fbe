import FeltRelay.Proofs.Entries
import Mathlib.Data.List.Chain
import Mathlib.Data.String.Basic

/-!
# Sorted tables

Sorting keeps the pairs of a table (`perm_sorted`) and what is found under each key
(`lookup_sorted`), and changes nothing the second time (`sorted_sorted`). Items of a list are
`arranged` by a key of theirs in the same way.
-/

namespace FeltRelay.Entries

variable {α β : Type}

theorem perm_insertSorted (e : String × α) (t : List (String × α)) :
    (insertSorted e t).Perm (e :: t) := by
  induction t with
  | nil => exact .refl _
  | cons f t ih =>
    rw [insertSorted]
    split
    · exact .refl _
    · exact (ih.cons f).trans (.swap e f t)

/-- Sorting keeps the pairs. -/
theorem perm_sorted (t : List (String × α)) : (sorted t).Perm t := by
  induction t with
  | nil => exact .refl _
  | cons e t ih => exact (perm_insertSorted e _).trans (ih.cons e)

theorem perm_keys_sorted (t : List (String × α)) : (keys (sorted t)).Perm (keys t) :=
  (perm_sorted t).map Prod.fst

theorem lookup_insertSorted (e : String × α) (t : List (String × α)) (k : String) :
    (insertSorted e t).lookup k = (e :: t).lookup k := by
  obtain ⟨i, v⟩ := e
  induction t with
  | nil => rfl
  | cons f t ih =>
    obtain ⟨j, w⟩ := f
    rw [insertSorted]
    split
    · rfl
    · rename_i hle
      rw [List.lookup_cons, ih, List.lookup_cons, List.lookup_cons, List.lookup_cons]
      by_cases hj : k = j
      · have hne : k ≠ i := fun hi => hle (le_of_eq (hi.symm.trans hj))
        rw [beq_false_of_ne hne]
      · rw [beq_false_of_ne hj]

/-- Sorting keeps what is found, also under a repeated key. -/
theorem lookup_sorted (t : List (String × α)) (k : String) : (sorted t).lookup k = t.lookup k := by
  induction t with
  | nil => rfl
  | cons e t ih =>
    obtain ⟨i, v⟩ := e
    rw [sorted, lookup_insertSorted, List.lookup_cons, List.lookup_cons, ih]

/-! ### Sorting twice -/

/-- Each key is at most the next one. -/
def Ascending (t : List (String × α)) : Prop := t.IsChain fun e f => e.1 ≤ f.1

theorem ascending_insertSorted (e : String × α) {t : List (String × α)} (h : Ascending t) :
    Ascending (insertSorted e t) := by
  induction t with
  | nil => exact List.isChain_singleton e
  | cons f t ih =>
    rw [insertSorted]
    split
    · rename_i hle
      exact h.cons_cons hle
    · rename_i hle
      have hfe : f.1 ≤ e.1 := (le_total f.1 e.1).resolve_right hle
      have htail := ih h.tail
      cases t with
      | nil => exact htail.cons_cons hfe
      | cons g t =>
        have hfg : f.1 ≤ g.1 := (List.isChain_cons_cons.1 h).1
        rw [insertSorted] at htail ⊢
        split at htail
        · rename_i heg
          rw [if_pos heg]
          exact htail.cons_cons hfe
        · rename_i heg
          rw [if_neg heg]
          exact htail.cons_cons hfg

theorem ascending_sorted (t : List (String × α)) : Ascending (sorted t) := by
  induction t with
  | nil => exact .nil
  | cons e t ih => exact ascending_insertSorted e ih

theorem sorted_of_ascending {t : List (String × α)} (h : Ascending t) : sorted t = t := by
  induction t with
  | nil => rfl
  | cons e t ih =>
    rw [sorted, ih h.tail]
    cases t with
    | nil => rfl
    | cons f t => rw [insertSorted, if_pos (List.isChain_cons_cons.1 h).1]

/-- A sorted table stays as it is. -/
theorem sorted_sorted (t : List (String × α)) : sorted (sorted t) = sorted t :=
  sorted_of_ascending (ascending_sorted t)

/-! ### Items by a key of theirs -/

theorem insertSorted_map (f : α → β) (e : String × α) (t : List (String × α)) :
    insertSorted (e.1, f e.2) (t.map fun e => (e.1, f e.2)) =
      (insertSorted e t).map fun e => (e.1, f e.2) := by
  induction t with
  | nil => rfl
  | cons g t ih =>
    rw [List.map_cons, insertSorted, insertSorted, ih]
    split
    · rfl
    · rfl

theorem sorted_map (f : α → β) (t : List (String × α)) :
    sorted (t.map fun e => (e.1, f e.2)) = (sorted t).map fun e => (e.1, f e.2) := by
  induction t with
  | nil => rfl
  | cons e t ih => rw [List.map_cons, sorted, ih, insertSorted_map, sorted]

variable (key : α → String)

/-- Items in ascending order of their keys. -/
def arranged (xs : List α) : List α := (sorted (xs.map fun x => (key x, x))).map (·.2)

/-- The sorted table of items under their keys holds them arranged. -/
theorem sorted_keyed (xs : List α) : sorted (xs.map fun x => (key x, x)) =
    (arranged key xs).map fun x => (key x, x) := by
  have hkey : ∀ e ∈ sorted (xs.map fun x => (key x, x)), (key e.2, e.2) = e := by
    intro e he
    obtain ⟨x, -, rfl⟩ := List.mem_map.1 ((perm_sorted _).mem_iff.1 he)
    rfl
  rw [arranged, List.map_map]
  exact ((List.map_congr_left hkey).trans (List.map_id _)).symm

theorem sorted_map_keyed (f : α → β) (xs : List α) : sorted (xs.map fun x => (key x, f x)) =
    (arranged key xs).map fun x => (key x, f x) := by
  have h := sorted_map f (xs.map fun x => (key x, x))
  rw [sorted_keyed, List.map_map, List.map_map] at h
  exact h

theorem perm_arranged (xs : List α) : (arranged key xs).Perm xs := by
  have h := (perm_sorted (xs.map fun x => (key x, x))).map (·.2)
  rw [List.map_map] at h
  exact h.trans (.of_eq (List.map_id' xs))

theorem mem_arranged {xs : List α} {x : α} : x ∈ arranged key xs ↔ x ∈ xs :=
  (perm_arranged key xs).mem_iff

theorem arranged_arranged (xs : List α) : arranged key (arranged key xs) = arranged key xs := by
  rw [arranged, ← sorted_keyed, sorted_sorted]
  rfl

theorem pairwise_arranged {xs : List α} (h : (xs.map key).Nodup) :
    (arranged key xs).Pairwise fun x y => key x < key y := by
  have hchain := ascending_sorted (xs.map fun x => (key x, x))
  have hle : (arranged key xs).Pairwise fun x y => key x ≤ key y := by
    have hpairs : ((arranged key xs).map fun x => (key x, x)).Pairwise fun e f => e.1 ≤ f.1 := by
      rw [← sorted_keyed]
      exact List.isChain_iff_pairwise.1 hchain
    rwa [List.pairwise_map] at hpairs
  have hne : (arranged key xs).Pairwise fun x y => key x ≠ key y := by
    have hnodup := ((perm_arranged key xs).map key).nodup_iff.2 h
    exact List.pairwise_map.1 hnodup
  exact hle.imp₂ (fun x y hxy hne => lt_of_le_of_ne hxy hne) hne

/-- Items with distinct keys have one order. -/
theorem arranged_eq_of_mem_iff {xs ys : List α} (hx : (xs.map key).Nodup) (hy : (ys.map key).Nodup)
    (h : ∀ x, x ∈ xs ↔ x ∈ ys) : arranged key xs = arranged key ys := by
  have hperm : (arranged key xs).Perm (arranged key ys) := by
    refine (perm_arranged key xs).trans (.trans ?_ (perm_arranged key ys).symm)
    exact (List.perm_ext_iff_of_nodup (List.Nodup.of_map key hx) (List.Nodup.of_map key hy)).2 h
  refine hperm.eq_of_pairwise (fun x y _ _ hxy hyx => ?_) (pairwise_arranged key hx)
    (pairwise_arranged key hy)
  exact absurd hxy (lt_asymm hyx)

/-- A change that keeps keys keeps the order. -/
theorem arranged_map {f : α → α} (hf : ∀ x, key (f x) = key x) (xs : List α) :
    arranged key (xs.map f) = (arranged key xs).map f := by
  have h := sorted_map_keyed key f xs
  rw [arranged, List.map_map]
  simp only [Function.comp_def, hf]
  rw [h, List.map_map]
  rfl

/-- What is found by its key is found among the arranged items. -/
theorem find?_arranged (xs : List α) (k : String) :
    (arranged key xs).find? (key · = k) = xs.find? (key · = k) := by
  have hlookup : ∀ ys : List α, ys.find? (key · = k) = (ys.map fun x => (key x, x)).lookup k := by
    intro ys
    induction ys with
    | nil => rfl
    | cons y ys ih =>
      rw [List.map_cons, List.lookup_cons, List.find?_cons, ih]
      by_cases hy : key y = k
      · simp [hy]
      · simp [hy, beq_false_of_ne (Ne.symm hy)]
  rw [hlookup, hlookup, ← sorted_keyed, lookup_sorted]

end FeltRelay.Entries
