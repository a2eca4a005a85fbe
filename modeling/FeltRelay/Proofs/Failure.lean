import FeltRelay.Failure.Described
import FeltRelay.Proofs.Entries
import FeltRelay.Proofs.Result

/-!
# Abbreviated details

Abbreviating twice gives what abbreviating once gives: the values that stay as they are, are those
that abbreviating leads to, marks of cuts included (`abbreviate_eq_self_iff`). So the details of a
failure are found unchanged in those of the failed call that it caused (`details_survive`).
-/

namespace FeltRelay.Failure

/-! ### One level -/

/-- Up to `room` items are kept, and the mark stands for the others. -/
theorem abbreviateItems_eq (limit room : Nat) (items : List Json) :
    abbreviateItems limit room items = (items.take room).map (abbreviate limit) ++
      if items.length ≤ room then [] else [.str cutMark] := by
  induction items generalizing room with
  | nil =>
    rw [abbreviateItems, List.take_nil, List.length_nil, if_pos (Nat.zero_le _)]
    rfl
  | cons v rest ih =>
    cases room with
    | zero => rfl
    | succ room =>
      rw [abbreviateItems, ih, List.take_succ_cons, List.map_cons, List.cons_append,
        List.length_cons]
      simp only [Nat.add_le_add_iff_right]

def abbreviateMember (limit : Nat) (e : String × Json) : String × Json :=
  (e.1, abbreviate limit e.2)

theorem keys_map_abbreviateMember (limit : Nat) (ms : List (String × Json)) :
    Entries.keys (ms.map (abbreviateMember limit)) = Entries.keys ms := List.map_map

/-- The member that stands for those that were cut. -/
def cutMember : String × Json := (cutMark, .str "truncated")

/-- Up to `room` members are written, and one more if there are others. -/
theorem abbreviateMembers_eq (limit room : Nat) (acc ms : List (String × Json)) :
    abbreviateMembers limit room acc ms =
      let kept := Entries.putAll acc ((ms.take room).map (abbreviateMember limit))
      if ms.length ≤ room then kept else Entries.put cutMember.1 cutMember.2 kept := by
  induction ms generalizing room acc with
  | nil =>
    rw [abbreviateMembers, List.take_nil, List.length_nil, if_pos (Nat.zero_le _)]
    rfl
  | cons e rest ih =>
    obtain ⟨k, v⟩ := e
    cases room with
    | zero => rfl
    | succ room =>
      rw [abbreviateMembers, ih, List.length_cons]
      simp only [Nat.add_le_add_iff_right]
      rfl

theorem lookup_abbreviateMembers {limit room : Nat} {ms : List (String × Json)}
    (hroom : ms.length ≤ room) (hnames : (Entries.keys ms).Nodup) {name : String} {v : Json}
    (h : ms.lookup name = some v) :
    (abbreviateMembers limit room [] ms).lookup name = some (abbreviate limit v) := by
  have hnew : (Entries.keys (ms.map (abbreviateMember limit))).Nodup := by
    rwa [keys_map_abbreviateMember]
  have hmem : (name, abbreviate limit v) ∈ ms.map (abbreviateMember limit) :=
    List.mem_map_of_mem (f := abbreviateMember limit) (Entries.mem_of_lookup h)
  have hkept : Entries.putAll [] (ms.map (abbreviateMember limit)) =
      ms.map (abbreviateMember limit) := Entries.ofPairs_of_nodup hnew
  rw [abbreviateMembers_eq, if_pos hroom, List.take_of_length_le hroom, hkept]
  exact Entries.lookup_of_mem hnew hmem

/-! ### Abbreviated values -/

/-- The values that abbreviating leads to. Texts, arrays and objects are short enough, or end in the
mark of a cut; no name of an object is repeated. -/
inductive Abbreviated (limit : Nat) : Json → Prop
  | null : Abbreviated limit .null
  | bool (b : Bool) : Abbreviated limit (.bool b)
  | int (i : Int) : Abbreviated limit (.int i)
  | num (x : Float) : Abbreviated limit (.num x)
  | text {s : String} (h : s.length ≤ limit) : Abbreviated limit (.str s)
  | cutText {s : String} (h : s.length = limit) : Abbreviated limit (.str (s ++ cutMark))
  | arr {items : List Json} (h : items.length ≤ maxEntries)
    (each : ∀ v ∈ items, Abbreviated limit v) : Abbreviated limit (.arr items)
  | cutArr {items : List Json} (h : items.length = maxEntries)
    (each : ∀ v ∈ items, Abbreviated limit v) : Abbreviated limit (.arr (items ++ [.str cutMark]))
  | obj {ms : List (String × Json)} (h : ms.length ≤ maxEntries) (names : (Entries.keys ms).Nodup)
    (each : ∀ e ∈ ms, Abbreviated limit e.2) : Abbreviated limit (.obj ms)
  | cutObj {ms : List (String × Json)} (h : ms.length = maxEntries)
    (names : (Entries.keys ms).Nodup) (hmark : cutMember.1 ∉ Entries.keys ms)
    (each : ∀ e ∈ ms, Abbreviated limit e.2) : Abbreviated limit (.obj (ms ++ [cutMember]))

variable {limit : Nat}

theorem abbreviated_text (s : String) : Abbreviated limit (.str (abbreviateText limit s)) := by
  rw [abbreviateText]
  split
  · rename_i h
    exact .text h
  · rename_i h
    apply Abbreviated.cutText
    rw [String.length_ofList, List.length_take, String.length_toList]
    omega

/-- Members that are kept of an object. -/
structure Kept (limit : Nat) (ms : List (String × Json)) : Prop where
  few : ms.length ≤ maxEntries
  names : (Entries.keys ms).Nodup
  each : ∀ e ∈ ms, Abbreviated limit e.2

theorem kept_ofPairs {ms : List (String × Json)} (hfew : ms.length ≤ maxEntries)
    (each : ∀ e ∈ ms, Abbreviated limit e.2) : Kept limit (Entries.ofPairs ms) where
  few := by
    have hlen := Entries.length_putAll_le [] ms
    rw [List.length_nil, Nat.zero_add] at hlen
    exact Nat.le_trans hlen hfew
  names := Entries.nodup_keys_ofPairs ms
  each := fun e he => each e ((Entries.mem_of_mem_putAll he).resolve_left List.not_mem_nil)

/-- The member that stands for others goes behind those that are kept, or takes the place of the one
that has its name. -/
theorem Kept.put_cutMember {ms : List (String × Json)} (h : Kept limit ms) (hlimit : 9 ≤ limit) :
    Abbreviated limit (.obj (Entries.put cutMember.1 cutMember.2 ms)) := by
  have hnames := Entries.nodup_put h.names cutMember.1 cutMember.2
  have heach : ∀ e ∈ Entries.put cutMember.1 cutMember.2 ms, Abbreviated limit e.2 := by
    intro e he
    rcases Entries.mem_of_mem_put he with rfl | he
    · exact .text hlimit
    · exact h.each e he
  by_cases hmark : cutMember.1 ∈ Entries.keys ms
  · have hlen := Entries.length_put_of_mem hmark cutMember.2
    exact .obj (hlen ▸ h.few) hnames heach
  by_cases hfull : ms.length = maxEntries
  · rw [Entries.put_of_not_mem hmark]
    exact .cutObj hfull h.names hmark h.each
  · have hlen := Entries.length_put_le cutMember.1 cutMember.2 ms
    have hfew := h.few
    exact .obj (by omega) hnames heach

theorem abbreviated_abbreviate (hlimit : 9 ≤ limit) (v : Json) :
    Abbreviated limit (abbreviate limit v) := by
  induction v using Json.induction with
  | null => exact .null
  | bool b => exact .bool b
  | int i => exact .int i
  | num x => exact .num x
  | str s => exact abbreviated_text s
  | arr items each =>
    have hlen : ((items.take maxEntries).map (abbreviate limit)).length =
        min maxEntries items.length := by
      rw [List.length_map, List.length_take]
    have hitems : ∀ v ∈ (items.take maxEntries).map (abbreviate limit), Abbreviated limit v := by
      intro v hv
      obtain ⟨w, hw, rfl⟩ := List.mem_map.1 hv
      exact each w (List.mem_of_mem_take hw)
    rw [abbreviate, abbreviateItems_eq]
    split
    · rw [List.append_nil]
      exact .arr (by omega) hitems
    · exact .cutArr (by omega) hitems
  | obj ms each =>
    have hkept : Kept limit
        (Entries.ofPairs ((ms.take maxEntries).map (abbreviateMember limit))) := by
      apply kept_ofPairs
      · rw [List.length_map, List.length_take]
        omega
      · intro e he
        obtain ⟨e', he', rfl⟩ := List.mem_map.1 he
        exact each e' (List.mem_of_mem_take he')
    rw [abbreviate, abbreviateMembers_eq]
    dsimp only
    split
    · exact .obj hkept.few hkept.names hkept.each
    · exact hkept.put_cutMember hlimit

/-! ### Abbreviating twice -/

theorem map_abbreviate_of_fixed {items : List Json} (h : ∀ v ∈ items, abbreviate limit v = v) :
    items.map (abbreviate limit) = items := by
  rw [List.map_congr_left h, List.map_id']

theorem map_abbreviateMember_of_fixed {ms : List (String × Json)}
    (h : ∀ e ∈ ms, abbreviate limit e.2 = e.2) : ms.map (abbreviateMember limit) = ms := by
  have hsame : ∀ e ∈ ms, abbreviateMember limit e = e := fun e he => by rw [abbreviateMember, h e he]
  rw [List.map_congr_left hsame, List.map_id']

theorem Abbreviated.abbreviate_eq {v : Json} (h : Abbreviated limit v) :
    abbreviate limit v = v := by
  induction h with
  | null | bool b | int i | num x => rfl
  | text h => rw [abbreviate, abbreviateText, if_pos h]
  | @cutText s h =>
    have hlong : ¬(s ++ cutMark).length ≤ limit := by
      rw [String.length_append, h]
      exact Nat.not_le.2 (Nat.lt_add_of_pos_right (by decide))
    have hfirst : (s ++ cutMark).toList.take limit = s.toList := by
      rw [String.toList_append]
      exact List.take_left' (String.length_toList.trans h)
    rw [abbreviate, abbreviateText, if_neg hlong, hfirst, String.ofList_toList]
  | arr h each ih =>
    rw [abbreviate, abbreviateItems_eq, if_pos h, List.take_of_length_le h,
      map_abbreviate_of_fixed ih, List.append_nil]
  | @cutArr items h each ih =>
    -- One item more than is kept: the mark is cut off and put back.
    have hlong : ¬(items ++ [Json.str cutMark]).length ≤ maxEntries := by
      rw [List.length_append, h]
      exact Nat.not_le.2 (Nat.lt_succ_self _)
    rw [abbreviate, abbreviateItems_eq, if_neg hlong, List.take_left' h,
      map_abbreviate_of_fixed ih]
  | obj h names each ih =>
    rw [abbreviate, abbreviateMembers_eq, if_pos h, List.take_of_length_le h,
      map_abbreviateMember_of_fixed ih]
    exact congrArg Json.obj (Entries.ofPairs_of_nodup names)
  | @cutObj ms h names hmark each ih =>
    have hlong : ¬(ms ++ [cutMember]).length ≤ maxEntries := by
      rw [List.length_append, h]
      exact Nat.not_le.2 (Nat.lt_succ_self _)
    have hkept : Entries.putAll [] ms = ms := Entries.ofPairs_of_nodup names
    rw [abbreviate, abbreviateMembers_eq, if_neg hlong, List.take_left' h,
      map_abbreviateMember_of_fixed ih]
    simp only [hkept, Entries.put_of_not_mem hmark]

theorem abbreviate_eq_self_iff (hlimit : 9 ≤ limit) {v : Json} :
    abbreviate limit v = v ↔ Abbreviated limit v :=
  ⟨fun h => h ▸ abbreviated_abbreviate hlimit v, Abbreviated.abbreviate_eq⟩

theorem abbreviate_abbreviate (hlimit : 9 ≤ limit) (v : Json) :
    abbreviate limit (abbreviate limit v) = abbreviate limit v :=
  (abbreviated_abbreviate hlimit v).abbreviate_eq

/-! ### Bounds -/

/-- At every depth the texts of a value have at most so many characters, and its arrays and objects
at most so many entries. -/
inductive IsBrief (longest most : Nat) : Json → Prop
  | null : IsBrief longest most .null
  | bool (b : Bool) : IsBrief longest most (.bool b)
  | int (i : Int) : IsBrief longest most (.int i)
  | num (x : Float) : IsBrief longest most (.num x)
  | str {s : String} (h : s.length ≤ longest) : IsBrief longest most (.str s)
  | arr {items : List Json} (h : items.length ≤ most) (each : ∀ v ∈ items, IsBrief longest most v) :
    IsBrief longest most (.arr items)
  | obj {ms : List (String × Json)} (h : ms.length ≤ most)
    (each : ∀ e ∈ ms, IsBrief longest most e.2) : IsBrief longest most (.obj ms)

/-- The marks of cuts come on top. -/
theorem Abbreviated.isBrief {v : Json} (hlimit : 9 ≤ limit) (h : Abbreviated limit v) :
    IsBrief (limit + 3) (maxEntries + 1) v := by
  have hmark : IsBrief (limit + 3) (maxEntries + 1) (.str cutMark) :=
    .str (show 3 ≤ limit + 3 by omega)
  have hmember : IsBrief (limit + 3) (maxEntries + 1) cutMember.2 :=
    .str (show 9 ≤ limit + 3 by omega)
  induction h with
  | null => exact .null
  | bool b => exact .bool b
  | int i => exact .int i
  | num x => exact .num x
  | text h => exact .str (by omega)
  | cutText h =>
    refine .str ?_
    rw [String.length_append, h]
    exact Nat.le_refl _
  | arr h each ih => exact .arr (by omega) ih
  | cutArr h each ih =>
    refine .arr ?_ fun v hv => ?_
    · rw [List.length_append, h]
      exact Nat.le_refl _
    · rcases List.mem_append.1 hv with hv | hv
      · exact ih v hv
      · rw [List.mem_singleton.1 hv]
        exact hmark
  | obj h names each ih => exact .obj (by omega) ih
  | cutObj h names hcut each ih =>
    refine .obj ?_ fun e he => ?_
    · rw [List.length_append, h]
      exact Nat.le_refl _
    · rcases List.mem_append.1 he with he | he
      · exact ih e he
      · rw [List.mem_singleton.1 he]
        exact hmember

/-! ### Details of a failed call -/

/-- What a failed call tells of its cause. -/
theorem lookup_cause (selector state kind cause : Json) :
    (shortened [("selector", selector), ("state", state), ("kind", kind), ("cause", cause)]).lookup
      "cause" = some (abbreviate textLimit cause) := by
  have hnames : (Entries.keys [("selector", selector), ("state", state), ("kind", kind),
      ("cause", cause)]).Nodup := (by decide : ["selector", "state", "kind", "cause"].Nodup)
  exact lookup_abbreviateMembers (show 4 ≤ maxEntries by decide) hnames rfl

/-- Details that are described are abbreviated. -/
theorem Described.abbreviated_details {kind : Kind} {inOrder : List Json}
    {named : List (String × Json)} {cause : Option Described} {e : Described}
    (h : ofArguments kind inOrder named cause = .ok e) : Abbreviated textLimit e.details := by
  rw [ofArguments] at h
  split at h
  · obtain ⟨d, -, rfl⟩ := map_eq_ok_iff.1 h
    exact abbreviated_abbreviate (by decide) d.details
  · cases h

theorem Described.member?_cause (selector state shown : Json) (cause : Described) :
    ∃ d, ofArguments .dispatchFailed []
        [("selector", selector), ("state", state), ("cause", shown)] (some cause) = .ok d ∧
      d.details.member? "cause" = some (abbreviate textLimit cause.details) :=
  ⟨_, rfl, lookup_cause selector state cause.kind.code cause.details⟩

/-- Details that no file was added to are abbreviated. -/
theorem abbreviated_details {f : Failure} (h : ∀ path, f.place ≠ .file path) :
    Abbreviated textLimit (.obj f.details) := by
  have hdetails : f.details = shortened (Entries.putAll f.place.details f.context) := by
    unfold details
    split
    · rename_i path hfile
      exact absurd hfile (h path)
    · rfl
  rw [hdetails]
  exact abbreviated_abbreviate (by decide) (.obj _)

theorem lookup_dispatchFailed (selector state : String) (cause : Failure) :
    (dispatchFailed selector state cause).details.lookup "cause" =
      some (abbreviate textLimit (.obj cause.details)) :=
  lookup_cause selector state cause.code (.obj cause.details)

/-- Abbreviating twice gives what abbreviating once gives. The values that it does not change are
those that it leads to; at every depth their texts have at most 259 characters and their arrays and
objects at most 17 entries. So a failure that is described by any arguments keeps its details when it
becomes the cause of a failed call, and so does one that the library found itself, unless the path of
a file was added to them. -/
theorem details_survive :
    (∀ v, abbreviate textLimit (abbreviate textLimit v) = abbreviate textLimit v ∧
      (abbreviate textLimit v = v ↔ Abbreviated textLimit v) ∧
      IsBrief 259 17 (abbreviate textLimit v)) ∧
    (∀ kind inOrder named cause e, Described.ofArguments kind inOrder named cause = .ok e →
      ∀ selector state shown, ∃ d, Described.ofArguments .dispatchFailed []
          [("selector", selector), ("state", state), ("cause", shown)] (some e) = .ok d ∧
        d.details.member? "cause" = some e.details) ∧
    ∀ (selector state : String) (cause : Failure), (∀ path, cause.place ≠ .file path) →
      (dispatchFailed selector state cause).details.lookup "cause" = some (.obj cause.details) := by
  have hlimit : 9 ≤ textLimit := by decide
  refine ⟨fun v => ⟨abbreviate_abbreviate hlimit v, abbreviate_eq_self_iff hlimit,
    (abbreviated_abbreviate hlimit v).isBrief hlimit⟩, ?_, ?_⟩
  · intro kind inOrder named cause e he selector state shown
    obtain ⟨d, hd, hcause⟩ := Described.member?_cause selector state shown e
    rw [(Described.abbreviated_details he).abbreviate_eq] at hcause
    exact ⟨d, hd, hcause⟩
  · intro selector state cause hplace
    rw [lookup_dispatchFailed, (abbreviated_details hplace).abbreviate_eq]

/-- A failure with an object of 17 members, the first of which has the name of the mark, and one at a
value of a document. -/
theorem details_survive_crowded :
    let names := ["b", "c", "d", "e", "f", "g", "h", "i", "j", "k", "l", "m", "n", "o", "p"]
    let crowded : Json := .obj ((["..."] ++ names ++ ["q"]).map (·, .arr (.replicate 20 .null)))
    let cut : Json := .obj (("...", "truncated") ::
      names.map (·, .arr (.replicate 16 .null ++ [.str "..."])))
    Described.ofArguments .bridge ["lost"] [("details", crowded)] none = .ok ⟨.bridge, "lost", cut⟩ ∧
      (∃ d, Described.ofArguments .dispatchFailed []
          [("selector", "sqrt"), ("state", "Encoded"), ("cause", .null)]
          (some ⟨.bridge, "lost", cut⟩) = .ok d ∧ d.details.member? "cause" = some cut) ∧
      (∀ path, (Failure.typeMismatch "$.n" "lost").place ≠ .file path) ∧
      (dispatchFailed "sqrt" "Encoded" (.typeMismatch "$.n" "lost")).details.lookup "cause" =
        some (.obj (Failure.typeMismatch "$.n" "lost").details) := by
  intro names crowded cut
  have hbuilt : Described.ofArguments .bridge ["lost"] [("details", crowded)] none =
      .ok ⟨.bridge, "lost", cut⟩ := rfl
  have hplace : ∀ path, (Failure.typeMismatch "$.n" "lost").place ≠ .file path := by
    intro path h
    cases h
  exact ⟨hbuilt, details_survive.2.1 _ _ _ _ _ hbuilt "sqrt" "Encoded" .null, hplace,
    details_survive.2.2 _ _ _ hplace⟩

end FeltRelay.Failure
