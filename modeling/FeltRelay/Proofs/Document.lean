import FeltRelay.Document
import FeltRelay.Proofs.Json.Reader
import FeltRelay.Proofs.Result

/-!
# What is read from files

A file that is read for settings or servers gives the members of a mapping, each name once, or is
refused with a failure of the configuration. It breaks reading off only if it is no text or holds a
number in base sixty that is beyond all numbers (`settled_members_iff`).
-/

namespace FeltRelay

/-- An attempt that gives a value or a failure of the configuration. -/
def Settled {α : Type} (r : Attempt α) : Prop :=
  ∀ p, r = .error p → ∃ f, p = .failure f ∧ f.kind = .config

variable {α β : Type}

theorem settled_ok (a : α) : Settled (.ok a : Attempt α) := fun _ h => nomatch h

theorem settled_config {f : Failure} (h : f.kind = .config) :
    Settled (.error (.failure f) : Attempt α) := by
  intro p hp
  cases hp
  exact ⟨f, rfl, h⟩

theorem not_settled_tooLarge (i : Int) : ¬Settled (.error (.tooLarge i) : Attempt α) := by
  intro h
  obtain ⟨f, hf, -⟩ := h _ rfl
  cases hf

/-- Steps in sequence are settled if each step that is reached is. -/
theorem settled_bind_iff {x : Attempt α} {f : α → Attempt β} :
    Settled (x >>= f) ↔ Settled x ∧ ∀ a, x = .ok a → Settled (f a) := by
  cases x with
  | error p =>
    constructor
    · intro h
      refine ⟨?_, fun a ha => nomatch ha⟩
      intro p' hp
      cases hp
      exact h p rfl
    · rintro ⟨h, -⟩ p' hp
      cases hp
      exact h p rfl
  | ok a =>
    constructor
    · intro h
      refine ⟨settled_ok a, ?_⟩
      intro b hb
      cases hb
      exact h
    · exact fun h => h.2 a rfl

end FeltRelay

namespace FeltRelay.Yaml

theorem same_text_iff {a : String} {name : Scalar} : name.same (.str a) = true ↔ name = .str a := by
  cases name with
  | str b => simp [Scalar.same, Scalar.whole?]
  | null | bool | int => simp [Scalar.same, Scalar.whole?]
  | num x => cases h : Decimal.toInt? x <;> simp [Scalar.same, Scalar.whole?, h]

theorem text_same_iff {a : String} {name : Scalar} :
    (Scalar.str a).same name = true ↔ name = .str a := by
  cases name with
  | str b => simp [Scalar.same, Scalar.whole?, eq_comm]
  | null | bool | int => simp [Scalar.same, Scalar.whole?]
  | num x => cases h : Decimal.toInt? x <;> simp [Scalar.same, Scalar.whole?, h]

theorem text?_eq_some_iff {a : String} {name : Scalar} :
    name.text? = some a ↔ name = .str a := by
  cases name <;> simp [Scalar.text?]

theorem texts_cons_of_none {name : Scalar} (h : name.text? = none) (v : Json) (ms : Named) :
    Named.texts ((name, v) :: ms) = Named.texts ms := by
  simp [Named.texts, h]

theorem texts_put_str (a : String) (v : Json) (ms : Named) :
    (Named.put (.str a) v ms).texts = Entries.put a v ms.texts := by
  induction ms with
  | nil => rfl
  | cons e ms ih =>
    obtain ⟨name, w⟩ := e
    rw [Named.put]
    cases hname : name.text? with
    | none =>
      have hdiff : ¬name.same (.str a) = true := by
        rw [same_text_iff]
        rintro rfl
        cases hname
      rw [if_neg hdiff, texts_cons_of_none hname, texts_cons_of_none hname, ih]
    | some b =>
      obtain rfl := text?_eq_some_iff.1 hname
      have hcons : Named.texts ((.str b, w) :: ms) = (b, w) :: Named.texts ms := rfl
      rw [hcons, Entries.put]
      split
      · rename_i h
        obtain rfl := Scalar.str.inj (same_text_iff.1 h)
        rw [if_pos rfl]
        rfl
      · rename_i h
        rw [if_neg fun hba => h (same_text_iff.2 (congrArg Scalar.str hba)), ← ih]
        rfl

theorem texts_put_of_none {name : Scalar} (h : name.text? = none) (v : Json) (ms : Named) :
    (Named.put name v ms).texts = ms.texts := by
  induction ms with
  | nil => exact texts_cons_of_none h v []
  | cons e ms ih =>
    obtain ⟨name', w⟩ := e
    rw [Named.put]
    cases hname : name'.text? with
    | none =>
      split
      · rw [texts_cons_of_none hname, texts_cons_of_none hname]
      · rw [texts_cons_of_none hname, texts_cons_of_none hname, ih]
    | some b =>
      obtain rfl := text?_eq_some_iff.1 hname
      have hdiff : ¬(Scalar.str b).same name = true := by
        rw [text_same_iff]
        rintro rfl
        cases h
      rw [if_neg hdiff]
      exact congrArg ((b, w) :: ·) ih

theorem texts_foldl_put (pairs ms : Named) :
    (pairs.foldl (fun acc e => Named.put e.1 e.2 acc) ms).texts =
      Entries.putAll ms.texts pairs.texts := by
  induction pairs generalizing ms with
  | nil => rfl
  | cons e pairs ih =>
    obtain ⟨name, v⟩ := e
    rw [List.foldl_cons, ih]
    cases hname : name.text? with
    | none => rw [texts_put_of_none hname, texts_cons_of_none hname]
    | some a =>
      obtain rfl := text?_eq_some_iff.1 hname
      rw [texts_put_str]
      rfl

/-- Names that are texts are kept apart. -/
theorem nodup_texts_ofPairs (pairs : Named) : (Entries.keys (Named.ofPairs pairs).texts).Nodup := by
  have h : (Named.ofPairs pairs).texts = Entries.ofPairs pairs.texts := texts_foldl_put pairs []
  rw [h]
  exact Entries.nodup_keys_ofPairs _

theorem nodup_keys_of_json {n : Node} {v : Json} (h : n.json = .ok v) :
    (Entries.keys v.members).Nodup := by
  cases n with
  | scalar x =>
    rw [Node.json] at h
    obtain ⟨x, -, rfl⟩ := map_eq_ok_iff.1 h
    cases x <;> exact List.nodup_nil
  | sequence items =>
    rw [Node.json] at h
    obtain ⟨vs, -, hvs⟩ := bind_eq_ok_iff.1 h
    cases hvs
    exact List.nodup_nil
  | mapping ms =>
    rw [Node.json] at h
    obtain ⟨named, -, hnamed⟩ := bind_eq_ok_iff.1 h
    cases hnamed
    exact Entries.nodup_keys_ofPairs _

theorem nodup_keys_of_pairs {ms : List (Weighed Scalar × Node)} {pairs : Named}
    (h : Node.pairs ms = .ok pairs) : ∀ e ∈ pairs, (Entries.keys e.2.members).Nodup := by
  induction ms generalizing pairs with
  | nil =>
    rw [Node.pairs] at h
    cases h
    exact fun _ he => absurd he List.not_mem_nil
  | cons e ms ih =>
    obtain ⟨name, n⟩ := e
    rw [Node.pairs] at h
    obtain ⟨name', -, h⟩ := bind_eq_ok_iff.1 h
    obtain ⟨v, hv, h⟩ := bind_eq_ok_iff.1 h
    obtain ⟨rest, hrest, h⟩ := bind_eq_ok_iff.1 h
    cases h
    exact List.forall_mem_cons.2 ⟨nodup_keys_of_json hv, ih hrest⟩

theorem value_of_mem_put {name : Scalar} {v : Json} {ms : Named} {e : Scalar × Json}
    (h : e ∈ Named.put name v ms) : e.2 = v ∨ e ∈ ms := by
  induction ms with
  | nil =>
    rw [Named.put, List.mem_singleton] at h
    exact .inl (h ▸ rfl)
  | cons f ms ih =>
    obtain ⟨name', w⟩ := f
    rw [Named.put] at h
    split at h
    · rcases List.mem_cons.1 h with rfl | h
      · exact .inl rfl
      · exact .inr (List.mem_cons_of_mem _ h)
    · rcases List.mem_cons.1 h with rfl | h
      · exact .inr (List.mem_cons_self ..)
      · exact (ih h).imp_right (List.mem_cons_of_mem _)

/-- What holds of all values that are written holds of all in the table. -/
theorem forall_foldl_put {P : Json → Prop} {pairs ms : Named} (hpairs : ∀ e ∈ pairs, P e.2)
    (hms : ∀ e ∈ ms, P e.2) :
    ∀ e ∈ pairs.foldl (fun acc e => Named.put e.1 e.2 acc) ms, P e.2 := by
  induction pairs generalizing ms with
  | nil => exact hms
  | cons f pairs ih =>
    obtain ⟨hf, hpairs⟩ := List.forall_mem_cons.1 hpairs
    refine ih hpairs fun e he => ?_
    rcases value_of_mem_put he with h | h
    · exact h ▸ hf
    · exact hms e h

/-! ### Numbers beyond all numbers -/

/-- Some scalar of a document, as a value or as a name, has a part whose weight is no number. -/
inductive Node.Beyond : Node → Prop
  | scalar {weight : Nat} : Beyond (.scalar (.error weight))
  | item {items : List Node} {n : Node} (mem : n ∈ items) (h : Beyond n) :
      Beyond (.sequence items)
  | name {ms : List (Weighed Scalar × Node)} {weight : Nat} {n : Node}
      (mem : (.error weight, n) ∈ ms) : Beyond (.mapping ms)
  | value {ms : List (Weighed Scalar × Node)} {name : Weighed Scalar} {n : Node}
      (mem : (name, n) ∈ ms) (h : Beyond n) : Beyond (.mapping ms)

theorem jsons_error_of_mem {items : List Node} {n : Node} (hn : n ∈ items)
    (h : ∃ w, n.json = .error w) : ∃ w, Node.jsons items = .error w := by
  induction items with
  | nil => cases hn
  | cons m items ih =>
    rw [Node.jsons]
    cases hm : m.json with
    | error w => exact ⟨w, rfl⟩
    | ok v =>
      rcases List.mem_cons.1 hn with rfl | hn
      · obtain ⟨w, hw⟩ := h
        rw [hm] at hw
        cases hw
      · obtain ⟨w, hw⟩ := ih hn
        exact ⟨w, by rw [hw]; rfl⟩

theorem pairs_error_of_mem {ms : List (Weighed Scalar × Node)} {e : Weighed Scalar × Node}
    (he : e ∈ ms) (h : (∃ w, e.1 = .error w) ∨ ∃ w, e.2.json = .error w) :
    ∃ w, Node.pairs ms = .error w := by
  induction ms with
  | nil => cases he
  | cons f ms ih =>
    obtain ⟨name, n⟩ := f
    rw [Node.pairs]
    cases hname : name with
    | error w => exact ⟨w, rfl⟩
    | ok name' =>
      cases hn : n.json with
      | error w => exact ⟨w, rfl⟩
      | ok v =>
        rcases List.mem_cons.1 he with rfl | he
        · rcases h with ⟨w, hw⟩ | ⟨w, hw⟩
          · rw [hname] at hw
            cases hw
          · rw [hn] at hw
            cases hw
        · obtain ⟨w, hw⟩ := ih he
          exact ⟨w, by rw [hw]; rfl⟩

theorem json_error_of_beyond {n : Node} (h : n.Beyond) : ∃ w, n.json = .error w := by
  induction h with
  | scalar => exact ⟨_, rfl⟩
  | item mem _ ih =>
    obtain ⟨w, hw⟩ := jsons_error_of_mem mem ih
    exact ⟨w, by rw [Node.json, hw]; rfl⟩
  | name mem =>
    obtain ⟨w, hw⟩ := pairs_error_of_mem mem (.inl ⟨_, rfl⟩)
    exact ⟨w, by rw [Node.json, hw]; rfl⟩
  | value mem _ ih =>
    obtain ⟨w, hw⟩ := pairs_error_of_mem mem (.inr ih)
    exact ⟨w, by rw [Node.json, hw]; rfl⟩

mutual

theorem beyond_of_json {n : Node} {w : Nat} (h : n.json = .error w) : n.Beyond := by
  cases n with
  | scalar v =>
    cases v with
    | error w' => exact .scalar
    | ok v => cases h
  | sequence items =>
    rw [Node.json] at h
    rcases bind_eq_error_iff.1 h with h | ⟨vs, -, h⟩
    · obtain ⟨n, hn, hbeyond⟩ := beyond_of_jsons h
      exact .item hn hbeyond
    · cases h
  | mapping ms =>
    rw [Node.json] at h
    rcases bind_eq_error_iff.1 h with h | ⟨vs, -, h⟩
    · exact beyond_of_pairs h
    · cases h

theorem beyond_of_jsons {items : List Node} {w : Nat} (h : Node.jsons items = .error w) :
    ∃ n ∈ items, n.Beyond := by
  cases items with
  | nil => cases h
  | cons n items =>
    rw [Node.jsons] at h
    rcases bind_eq_error_iff.1 h with h | ⟨v, -, h⟩
    · exact ⟨n, List.mem_cons_self .., beyond_of_json h⟩
    · rcases bind_eq_error_iff.1 h with h | ⟨vs, -, h⟩
      · obtain ⟨n', hn', hbeyond⟩ := beyond_of_jsons h
        exact ⟨n', List.mem_cons_of_mem _ hn', hbeyond⟩
      · cases h

theorem beyond_of_pairs {ms : List (Weighed Scalar × Node)} {w : Nat}
    (h : Node.pairs ms = .error w) : (Node.mapping ms).Beyond := by
  cases ms with
  | nil => cases h
  | cons e ms =>
    obtain ⟨name, n⟩ := e
    rw [Node.pairs] at h
    rcases bind_eq_error_iff.1 h with h | ⟨name', -, h⟩
    · subst h
      exact .name (List.mem_cons_self ..)
    rcases bind_eq_error_iff.1 h with h | ⟨v, -, h⟩
    · exact .value (List.mem_cons_self ..) (beyond_of_json h)
    rcases bind_eq_error_iff.1 h with h | ⟨vs, -, h⟩
    · cases beyond_of_pairs h with
      | name mem => exact .name (List.mem_cons_of_mem _ mem)
      | value mem hn => exact .value (List.mem_cons_of_mem _ mem) hn
    · cases h

end

theorem members_error_iff {n : Node} : (∃ w, n.members = .error w) ↔ n.Beyond := by
  constructor
  · rintro ⟨w, h⟩
    cases n with
    | mapping ms =>
      rw [Node.members] at h
      rcases bind_eq_error_iff.1 h with h | ⟨vs, -, h⟩
      · exact beyond_of_pairs h
      · cases h
    | scalar v | sequence items =>
      simp only [Node.members] at h
      rcases bind_eq_error_iff.1 h with h | ⟨vs, -, h⟩
      · exact beyond_of_json h
      · cases h
  · intro hbeyond
    obtain ⟨w, h⟩ := json_error_of_beyond hbeyond
    refine ⟨w, ?_⟩
    cases n with
    | mapping ms =>
      rw [Node.json] at h
      rcases bind_eq_error_iff.1 h with h | ⟨vs, -, h⟩
      · rw [Node.members, h]
        rfl
      · cases h
    | scalar v | sequence items =>
      simp only [Node.members]
      rw [h]
      rfl

end FeltRelay.Yaml

namespace FeltRelay.Document

open FeltRelay.Yaml

variable {purpose : Purpose} {path : String} {contents : Contents} {ms : Named}

theorem nodup_keys_of_yaml {n : Node} (h : n.members = .ok (some ms)) :
    (Entries.keys ms.texts).Nodup ∧ ∀ e ∈ ms, (Entries.keys e.2.members).Nodup := by
  cases n with
  | mapping members =>
    rw [Node.members] at h
    obtain ⟨pairs, hpairs, h⟩ := bind_eq_ok_iff.1 h
    cases h
    refine ⟨nodup_texts_ofPairs pairs, ?_⟩
    exact forall_foldl_put (P := fun v => (Entries.keys v.members).Nodup)
      (nodup_keys_of_pairs hpairs) fun _ he => absurd he List.not_mem_nil
  | scalar | sequence =>
    simp only [Node.members] at h
    obtain ⟨v, -, h⟩ := bind_eq_ok_iff.1 h
    split at h
    · cases h
      exact ⟨List.nodup_nil, fun _ he => absurd he List.not_mem_nil⟩
    · cases h

theorem texts_map (ms : List (String × Json)) :
    Named.texts (ms.map fun e => (.str e.1, e.2)) = ms := by
  induction ms with
  | nil => rfl
  | cons e ms ih => exact congrArg (e :: ·) ih

theorem nodup_members_of_tidy {n : Nat} {v : Json} (h : v.Tidy n) :
    (Entries.keys v.members).Nodup := by
  cases h with
  | obj nodup => exact nodup
  | _ => exact List.nodup_nil

theorem nodup_keys_of_json {text : String} {v : Json} (hread : Json.read? text = some v)
    (h : membersOf v = some ms) :
    (Entries.keys ms.texts).Nodup ∧ ∀ e ∈ ms, (Entries.keys e.2.members).Nodup := by
  have htidy := Json.tidy_of_read? hread
  cases v with
  | obj members =>
    cases h
    cases htidy with
    | obj nodup each =>
      refine ⟨by rwa [texts_map], ?_⟩
      intro e he
      obtain ⟨e', he', rfl⟩ := List.mem_map.1 he
      exact nodup_members_of_tidy (each e' he')
  | null | bool | int | num | str | arr => cases h

theorem parsed_eq_ok_iff {α : Type} {v : Option α} {a : α} :
    parsed purpose path v = .ok a ↔ v = some a := by
  cases v <;> simp [parsed]

/-- In the mapping that a file holds no name is repeated that is a text, nor in its sections. -/
theorem nodup_keys_of_members (h : members purpose path contents = .ok (some ms)) :
    (Entries.keys ms.texts).Nodup ∧ ∀ e ∈ ms, (Entries.keys e.2.members).Nodup := by
  unfold members at h
  obtain ⟨s, -, h⟩ := bind_eq_ok_iff.1 h
  split at h
  · obtain ⟨n, hn, h⟩ := bind_eq_ok_iff.1 h
    split at h
    · rename_i hms
      cases h
      exact nodup_keys_of_yaml hms
    · cases h
  · obtain ⟨v, hv, h⟩ := bind_eq_ok_iff.1 h
    exact nodup_keys_of_json (parsed_eq_ok_iff.1 hv) (Except.ok.inj h)

/-! ### How reading breaks off -/

/-- A file that is no text, or that holds a number in base sixty beyond all numbers. -/
inductive Broken (path : String) (contents : Contents) : Prop
  | notText {bytes : List UInt8} (read : contents = some bytes)
      (bad : Text.Utf8.decode? bytes = none)
  | beyond {purpose : Purpose} {s : String} {n : Node} (text : text purpose path contents = .ok s)
      (yaml : isYaml path = true) (parsed : Yaml.read? s = some n) (beyond : n.Beyond)

theorem settled_text_iff (hkind : purpose.kind = .config) :
    Settled (text purpose path contents) ↔
      ¬∃ bytes, contents = some bytes ∧ Text.Utf8.decode? bytes = none := by
  cases contents with
  | none => exact iff_of_true (settled_config hkind) (fun ⟨_, h, _⟩ => nomatch h)
  | some bytes =>
    cases hdecode : Text.Utf8.decode? bytes with
    | some s =>
      have hok : Settled (text purpose path (some bytes)) := by
        simp only [text, hdecode]
        exact settled_ok _
      refine iff_of_true hok ?_
      rintro ⟨bytes', hbytes, hbad⟩
      cases hbytes
      rw [hdecode] at hbad
      cases hbad
    | none =>
      refine iff_of_false ?_ (not_not.2 ⟨bytes, rfl, hdecode⟩)
      simp only [text, hdecode]
      intro h
      obtain ⟨f, hf, -⟩ := h _ rfl
      cases hf

theorem settled_parsed {α : Type} (hkind : purpose.kind = .config) (v : Option α) :
    Settled (parsed purpose path v) := by
  cases v with
  | none => exact settled_config hkind
  | some a => exact settled_ok a

theorem text_congr {other : Purpose} {s : String} (h : text purpose path contents = .ok s) :
    text other path contents = .ok s := by
  cases contents with
  | none => cases h
  | some bytes => exact h

/-- Members are read or refused unless a file is broken. -/
theorem settled_members_iff (hkind : purpose.kind = .config) :
    Settled (members purpose path contents) ↔ ¬Broken path contents := by
  unfold members
  rw [settled_bind_iff, settled_text_iff hkind]
  constructor
  · rintro ⟨htext, hrest⟩ hbroken
    cases hbroken with
    | notText read bad => exact htext ⟨_, read, bad⟩
    | @beyond _ s n text yaml parsed beyond =>
      have h := hrest s (text_congr text)
      rw [if_pos yaml, settled_bind_iff] at h
      have hmembers := h.2 n (parsed_eq_ok_iff.2 parsed)
      obtain ⟨w, hw⟩ := members_error_iff.2 beyond
      rw [hw] at hmembers
      exact not_settled_tooLarge w hmembers
  · intro hbroken
    refine ⟨fun ⟨bytes, read, bad⟩ => hbroken (.notText read bad), ?_⟩
    intro s htext
    split
    · rename_i yaml
      refine settled_bind_iff.2 ⟨settled_parsed hkind _, ?_⟩
      intro n hparsed
      split
      · exact settled_ok _
      · rename_i w hw
        exact absurd (Broken.beyond htext yaml (parsed_eq_ok_iff.1 hparsed)
          (members_error_iff.1 ⟨w, hw⟩)) hbroken
    · exact settled_bind_iff.2 ⟨settled_parsed hkind _, fun v _ => settled_ok _⟩

end FeltRelay.Document
