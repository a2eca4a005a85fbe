import FeltRelay.Json.Reader
import FeltRelay.Proofs.Entries

/-!
# What is read from JSON text

In a value that was read no object repeats a name, and no array has more items than the text has
characters (`tidy_of_read?`).
-/

namespace FeltRelay.Json

/-- No object repeats a name, and no array has more than `n` items. -/
inductive Tidy (n : Nat) : Json → Prop
  | null : Tidy n .null
  | bool (b : Bool) : Tidy n (.bool b)
  | int (i : Int) : Tidy n (.int i)
  | num (x : Float) : Tidy n (.num x)
  | str (s : String) : Tidy n (.str s)
  | arr {items : List Json} (length : items.length ≤ n) (each : ∀ v ∈ items, Tidy n v) :
      Tidy n (.arr items)
  | obj {ms : List (String × Json)} (nodup : (Entries.keys ms).Nodup)
      (each : ∀ e ∈ ms, Tidy n e.2) : Tidy n (.obj ms)

variable {n : Nat}

theorem tidy_of_readMagnitude {negative : Bool} {s r : List Char} {v : Json}
    (h : readMagnitude negative s = some (v, r)) : Tidy n v := by
  unfold readMagnitude at h
  dsimp only at h
  -- whatever parts the number has, it is one of the two kinds
  repeat' split at h
  all_goals first
    | cases h; exact .int _
    | cases h; exact .num _
    | cases h

theorem tidy_of_readNumber {s r : List Char} {v : Json} (h : readNumber s = some (v, r)) :
    Tidy n v := by
  unfold readNumber at h
  split at h
  · split at h
    · cases h
      exact .num _
    · exact tidy_of_readMagnitude h
  · exact tidy_of_readMagnitude h

theorem tidy_of_mem_words {e : List Char × Json} (h : e ∈ words) : Tidy n e.2 := by
  simp only [words, List.mem_cons, List.not_mem_nil, or_false] at h
  rcases h with rfl | rfl | rfl | rfl | rfl
  · exact .null
  · exact .bool true
  · exact .bool false
  · exact .num _
  · exact .num _

theorem tidy_of_readAtom {s r : List Char} {v : Json} (h : readAtom s = some (v, r)) :
    Tidy n v := by
  unfold readAtom at h
  split at h
  · rename_i found hfound
    cases h
    obtain ⟨e, he, hmap⟩ := List.exists_of_findSome?_eq_some hfound
    obtain ⟨r', -, hpair⟩ := Option.map_eq_some_iff.1 hmap
    cases hpair
    exact tidy_of_mem_words he
  · exact tidy_of_readNumber h

/-- What a value reader gives is tidy; what an item or member reader adds to tidy parts is. -/
structure ReadsTidy (n fuel : Nat) : Prop where
  value : ∀ {s v r}, readValue fuel s = some (v, r) → Tidy n v
  items : ∀ {acc s v r}, readItems fuel acc s = some (v, r) → acc.length + fuel ≤ n →
    (∀ x ∈ acc, Tidy n x) → Tidy n v
  members : ∀ {acc s v r}, readMembers fuel acc s = some (v, r) → (∀ e ∈ acc, Tidy n e.2) →
    Tidy n v

theorem readsTidy_zero : ReadsTidy n 0 := by
  constructor
  · intro s v r h
    cases h
  · intro acc s v r h
    cases h
  · intro acc s v r h
    cases h

variable {fuel : Nat}

theorem readsTidy_value (below : ReadsTidy n fuel) (hn : fuel ≤ n) {s r : List Char} {v : Json}
    (h : readValue (fuel + 1) s = some (v, r)) : Tidy n v := by
  unfold readValue at h
  split at h
  · obtain ⟨e, -, hpair⟩ := Option.map_eq_some_iff.1 h
    cases hpair
    exact .str _
  · split at h
    · cases h
      exact .arr (Nat.zero_le _) fun _ h => absurd h List.not_mem_nil
    · exact below.items h (by rw [List.length_nil]; omega) fun _ h => absurd h List.not_mem_nil
  · split at h
    · cases h
      exact .obj List.nodup_nil fun _ h => absurd h List.not_mem_nil
    · exact below.members h fun _ h => absurd h List.not_mem_nil
  · exact tidy_of_readAtom h

theorem readsTidy_items (below : ReadsTidy n fuel) {acc : List Json} {s r : List Char} {v : Json}
    (h : readItems (fuel + 1) acc s = some (v, r)) (hlen : acc.length + (fuel + 1) ≤ n)
    (hacc : ∀ x ∈ acc, Tidy n x) : Tidy n v := by
  rw [readItems] at h
  split at h
  · cases h
  · rename_i w r' hw
    have hall : ∀ x ∈ w :: acc, Tidy n x := by
      intro x hx
      rcases List.mem_cons.1 hx with rfl | hx
      · exact below.value hw
      · exact hacc x hx
    split at h
    · exact below.items h (by rw [List.length_cons]; omega) hall
    · cases h
      refine .arr ?_ fun x hx => hall x (List.mem_reverse.1 hx)
      rw [List.length_reverse, List.length_cons]
      omega
    · cases h

theorem readsTidy_members (below : ReadsTidy n fuel) {acc : List (String × Json)} {s r : List Char}
    {v : Json} (h : readMembers (fuel + 1) acc s = some (v, r)) (hacc : ∀ e ∈ acc, Tidy n e.2) :
    Tidy n v := by
  unfold readMembers at h
  split at h
  · split at h
    · cases h
    · rename_i k r' hk
      split at h
      · split at h
        · cases h
        · rename_i w r'' hw
          have hall : ∀ e ∈ (String.ofList k, w) :: acc, Tidy n e.2 := by
            intro e he
            rcases List.mem_cons.1 he with rfl | he
            · exact below.value hw
            · exact hacc e he
          dsimp only at h
          split at h
          · exact below.members h hall
          · cases h
            refine .obj (Entries.nodup_keys_ofPairs _) fun e he => ?_
            have hmem := (Entries.mem_of_mem_putAll he).resolve_left List.not_mem_nil
            exact hall e (List.mem_reverse.1 hmem)
          · cases h
      · cases h
  · cases h

theorem readsTidy (hn : fuel ≤ n) : ReadsTidy n fuel := by
  induction fuel with
  | zero => exact readsTidy_zero
  | succ fuel ih =>
    have below := ih (Nat.le_of_succ_le hn)
    exact ⟨readsTidy_value below (Nat.le_of_succ_le hn), readsTidy_items below,
      readsTidy_members below⟩

/-- A value that was read repeats no name, and its arrays are no longer than its text. -/
theorem tidy_of_read? {text : String} {v : Json} (h : read? text = some v) :
    Tidy (text.length + 1) v := by
  rw [read?] at h
  split at h
  · rename_i w r hw
    split at h
    · cases h
      exact (readsTidy (Nat.le_refl _)).value hw
    · cases h
  · cases h

end FeltRelay.Json
