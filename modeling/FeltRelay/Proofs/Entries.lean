import FeltRelay.Entries
import Mathlib.Data.List.Nodup

/-!
# Tables with distinct keys

A table that is written key by key, no key twice, holds what was written in order
(`ofPairs_of_nodup`), and each of its pairs is found under its key (`lookup_of_mem`).
-/

namespace FeltRelay.Entries

variable {α : Type}

theorem put_of_not_mem {k : String} {t : List (String × α)} (h : k ∉ keys t) (v : α) :
    put k v t = t ++ [(k, v)] := by
  induction t with
  | nil => rfl
  | cons e t ih =>
    obtain ⟨k', v'⟩ := e
    rw [keys_cons, List.mem_cons, not_or] at h
    rw [put, if_neg (Ne.symm h.1), ih h.2]
    rfl

theorem putAll_of_nodup {old new : List (String × α)} (h : (keys (old ++ new)).Nodup) :
    putAll old new = old ++ new := by
  induction new generalizing old with
  | nil => exact (List.append_nil old).symm
  | cons e new ih =>
    have hnd : (keys old ++ e.1 :: keys new).Nodup := by
      simpa only [keys, List.map_append, List.map_cons] using h
    have hfresh : e.1 ∉ keys old := by
      intro hmem
      exact (List.nodup_append.1 hnd).2.2 _ hmem _ (List.mem_cons_self ..) rfl
    have hstep : putAll old (e :: new) = putAll (old ++ [(e.1, e.2)]) new := by
      rw [← put_of_not_mem hfresh]
      rfl
    rw [hstep, ih (by simpa using h)]
    simp

/-- A table is its pairs in order if no key is repeated. -/
theorem ofPairs_of_nodup {pairs : List (String × α)} (h : (keys pairs).Nodup) :
    ofPairs pairs = pairs := by
  rw [ofPairs, putAll_of_nodup (by simpa using h), List.nil_append]

theorem lookup_of_mem {t : List (String × α)} (h : (keys t).Nodup) {k : String} {v : α}
    (hm : (k, v) ∈ t) : t.lookup k = some v := by
  induction t with
  | nil => cases hm
  | cons e t ih =>
    obtain ⟨k', v'⟩ := e
    rw [keys_cons, List.nodup_cons] at h
    rcases List.mem_cons.1 hm with he | hm
    · cases he
      simp
    · have hmem : k ∈ keys t := List.mem_map_of_mem (f := (·.1)) hm
      have hne : k ≠ k' := by
        rintro rfl
        exact h.1 hmem
      rw [List.lookup_cons, beq_false_of_ne hne, ih h.2 hm]

theorem mem_of_lookup {t : List (String × α)} {k : String} {v : α} (h : t.lookup k = some v) :
    (k, v) ∈ t := by
  induction t with
  | nil => cases h
  | cons e t ih =>
    obtain ⟨k', v'⟩ := e
    rw [List.lookup_cons] at h
    split at h
    · rename_i hk
      cases h
      rw [eq_of_beq hk]
      exact List.mem_cons_self ..
    · exact List.mem_cons_of_mem _ (ih h)

/-- Of distinct keys each leads to the one element that has it. -/
theorem find?_of_nodup {β : Type} [DecidableEq β] {key : α → β} {xs : List α}
    (h : (xs.map key).Nodup) {x : α} (hx : x ∈ xs) : xs.find? (key · = key x) = some x := by
  have hsome : (xs.find? (key · = key x)).isSome := List.find?_isSome.2 ⟨x, hx, by simp⟩
  obtain ⟨y, hy⟩ := Option.isSome_iff_exists.1 hsome
  have hkey : key y = key x := by simpa using List.find?_some hy
  rw [hy, List.inj_on_of_nodup_map h (List.mem_of_find?_eq_some hy) hx hkey]

/-! ### Keys of a written table -/

theorem mem_of_mem_put {k : String} {v : α} {t : List (String × α)} {e : String × α}
    (h : e ∈ put k v t) : e = (k, v) ∨ e ∈ t := by
  induction t with
  | nil => exact .inl (List.mem_singleton.1 h)
  | cons f t ih =>
    obtain ⟨k', v'⟩ := f
    by_cases hk : k' = k
    · rw [put, if_pos hk, hk] at h
      exact (List.mem_cons.1 h).imp_right (List.mem_cons_of_mem _)
    · rw [put, if_neg hk] at h
      rcases List.mem_cons.1 h with h | h
      · exact .inr (h ▸ List.mem_cons_self ..)
      · exact (ih h).imp_right (List.mem_cons_of_mem _)

theorem mem_of_mem_putAll {old new : List (String × α)} {e : String × α}
    (h : e ∈ putAll old new) : e ∈ old ∨ e ∈ new := by
  induction new generalizing old with
  | nil => exact .inl h
  | cons f new ih =>
    rcases ih (h : e ∈ putAll (put f.1 f.2 old) new) with h | h
    · exact (mem_of_mem_put h).elim (fun he => .inr (he ▸ List.mem_cons_self ..)) .inl
    · exact .inr (List.mem_cons_of_mem _ h)

theorem nodup_put {t : List (String × α)} (h : (keys t).Nodup) (k : String) (v : α) :
    (keys (put k v t)).Nodup := by
  induction t with
  | nil => exact List.nodup_singleton k
  | cons f t ih =>
    obtain ⟨k', v'⟩ := f
    by_cases hk : k' = k
    · rwa [put, if_pos hk]
    · rw [keys_cons, List.nodup_cons] at h
      rw [put, if_neg hk, keys_cons, List.nodup_cons]
      refine ⟨fun hmem => ?_, ih h.2⟩
      obtain ⟨e, he, heq⟩ := List.mem_map.1 hmem
      rcases mem_of_mem_put he with rfl | he
      · exact hk heq.symm
      · exact h.1 (heq ▸ List.mem_map_of_mem (f := (·.1)) he)

/-- No key is written twice. -/
theorem nodup_putAll {t : List (String × α)} (h : (keys t).Nodup) (new : List (String × α)) :
    (keys (putAll t new)).Nodup := by
  induction new generalizing t with
  | nil => exact h
  | cons e new ih => exact ih (nodup_put h e.1 e.2)

theorem length_put_of_mem {k : String} {t : List (String × α)} (h : k ∈ keys t) (v : α) :
    (put k v t).length = t.length := by
  induction t with
  | nil => cases h
  | cons f t ih =>
    obtain ⟨k', v'⟩ := f
    by_cases hk : k' = k
    · rw [put, if_pos hk]
      rfl
    · have hmem := (List.mem_cons.1 h).resolve_left (Ne.symm hk)
      rw [put, if_neg hk, List.length_cons, ih hmem, List.length_cons]

theorem length_put_le (k : String) (v : α) (t : List (String × α)) :
    (put k v t).length ≤ t.length + 1 := by
  by_cases h : k ∈ keys t
  · rw [length_put_of_mem h]
    exact Nat.le_succ _
  · rw [put_of_not_mem h, List.length_append]
    exact Nat.le_refl _

theorem length_putAll_le (old new : List (String × α)) :
    (putAll old new).length ≤ old.length + new.length := by
  induction new generalizing old with
  | nil => exact Nat.le_refl _
  | cons e new ih =>
    have hput := length_put_le e.1 e.2 old
    have hrest : (putAll old (e :: new)).length ≤ _ := ih (put e.1 e.2 old)
    rw [List.length_cons]
    omega

theorem not_mem_keys_of_lookup {t : List (String × α)} {k : String} (h : k ∉ keys t) :
    t.lookup k = none := by
  cases hk : t.lookup k with
  | none => rfl
  | some v => exact absurd (List.mem_map_of_mem (f := (·.1)) (mem_of_lookup hk)) h

/-- What is written is found first. -/
theorem lookup_putAll {new : List (String × α)} (h : (keys new).Nodup) (old : List (String × α))
    (k : String) : (putAll old new).lookup k = (new.lookup k).or (old.lookup k) := by
  induction new generalizing old with
  | nil => rfl
  | cons e new ih =>
    obtain ⟨k', v⟩ := e
    rw [keys_cons, List.nodup_cons] at h
    have hstep : putAll old ((k', v) :: new) = putAll (put k' v old) new := rfl
    rw [hstep, ih h.2]
    by_cases hk : k = k'
    · subst hk
      rw [not_mem_keys_of_lookup h.1, lookup_put_self, List.lookup_cons, beq_self_eq_true]
      rfl
    · rw [lookup_put_of_ne hk, List.lookup_cons, beq_false_of_ne hk]

theorem nodup_keys_ofPairs (pairs : List (String × α)) : (keys (ofPairs pairs)).Nodup :=
  nodup_putAll (t := []) List.nodup_nil pairs

end FeltRelay.Entries
