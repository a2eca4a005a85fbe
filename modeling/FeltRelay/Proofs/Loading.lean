import FeltRelay.Proofs.Settings
import FeltRelay.Server.Table

/-!
# How loading ends

Settings and tables of servers are loaded or refused with a failure of the configuration, unless the
file breaks reading off, an integer is beyond the numbers that it is read as, or the services of a
table have no order (`loading_settled_iff`).
-/

namespace FeltRelay.Settings

variable {β : Type} {env : Environment} {file : Option (String × Contents)}
  {overrides d f : Draft} {s : Settings} {name key : String}

/-! ### Settings -/

theorem settled_readDuration_iff {v : Json} :
    Settled (readDuration key v) ↔ ¬∃ i, v = .int i ∧ Decimal.ofInt? i = none := by
  unfold readDuration
  cases v with
  | int i =>
    cases hi : Decimal.ofInt? i with
    | some x =>
      refine iff_of_true (by simp [hi, settled_ok]) ?_
      rintro ⟨j, hj, hnone⟩
      cases hj
      rw [hi] at hnone
      cases hnone
    | none =>
      refine iff_of_false ?_ (not_not.2 ⟨i, rfl, hi⟩)
      simp only [hi]
      exact not_settled_tooLarge i
  | str text =>
    refine iff_of_true ?_ (by simp)
    simp only
    split
    · exact settled_ok _
    · exact settled_config rfl
  | num x => exact iff_of_true (settled_ok x) (by simp)
  | null | bool | arr | obj => exact iff_of_true (settled_config rfl) (by simp)

theorem settled_readInteger (key : String) (v : Json) : Settled (readInteger key v) := by
  unfold readInteger
  cases v with
  | int i => exact settled_ok i
  | str text =>
    simp only
    split
    · exact settled_ok _
    · exact settled_config rfl
  | null | bool | num | arr | obj => exact settled_config rfl

theorem settled_checkSections (d : Draft) : Settled (checkSections d) := by
  unfold checkSections
  split
  · exact settled_config rfl
  · exact settled_ok d

theorem settled_checkKeys (d : Draft) : Settled (checkKeys d) := by
  unfold checkKeys
  dsimp only
  split
  · exact settled_ok _
  · exact settled_config rfl

theorem settled_checkRanges (s : Settings) : Settled s.checkRanges := by
  unfold checkRanges
  split
  · exact settled_config rfl
  · exact settled_ok s

/-- Where durations are, in the order in which they are read. -/
def durationPlaces : List (String × String) :=
  [("transport", "request_timeout_s"), ("polling", "interval_s"),
    ("polling", "request_timeout_s"), ("polling", "overall_timeout_s")]

/-- The first of these durations that cannot be read is an integer beyond all numbers. -/
inductive Overflows (d : Draft) : List (String × String) → Prop
  | here {name key : String} {rest : List (String × String)} {i : Int}
      (value : value? d name key = some (.int i)) (large : Decimal.ofInt? i = none) :
      Overflows d ((name, key) :: rest)
  | later {name key : String} {rest : List (String × String)} {x : Float}
      (read : durationAt d name key = .ok x) (h : Overflows d rest) :
      Overflows d ((name, key) :: rest)

theorem not_overflows_nil : ¬Overflows d [] := fun h => nomatch h

theorem settled_durationAt_bind {g : Float → Attempt β} {rest : List (String × String)}
    (h : ∀ x, Settled (g x) ↔ ¬Overflows d rest) :
    Settled (durationAt d name key >>= g) ↔ ¬Overflows d ((name, key) :: rest) := by
  rw [settled_bind_iff, durationAt, settled_readDuration_iff]
  constructor
  · rintro ⟨hfits, hrest⟩ hover
    cases hover with
    | here value large => exact hfits ⟨_, by rw [value]; rfl, large⟩
    | later read hover => exact (h _).1 (hrest _ read) hover
  · intro hover
    refine ⟨?_, fun x hx => (h x).2 fun hlater => hover (.later hx hlater)⟩
    rintro ⟨i, hi, large⟩
    refine hover (.here ?_ large)
    cases hv : value? d name key with
    | none => rw [hv] at hi; cases hi
    | some v => rw [hv] at hi; exact congrArg some hi

theorem settled_ofDraft_iff (hd : Complete d) :
    Settled (ofDraft d) ↔ ¬Overflows d durationPlaces := by
  have hchecked : checkSections d = .ok d := checkSections_eq_ok_iff.2 ⟨hd, rfl⟩
  unfold ofDraft
  rw [hchecked, ok_bind]
  refine settled_durationAt_bind fun requestTimeout => ?_
  refine settled_durationAt_bind fun interval => ?_
  refine settled_durationAt_bind fun pollRequestTimeout => ?_
  refine settled_durationAt_bind fun overallTimeout => ?_
  refine iff_of_true ?_ not_overflows_nil
  refine settled_bind_iff.2 ⟨settled_readInteger _ _, fun maxAttempts _ => ?_⟩
  refine settled_bind_iff.2 ⟨settled_readInteger _ _, fun modulus _ => ?_⟩
  exact settled_bind_iff.2 ⟨settled_checkKeys d, fun _ _ => settled_ok _⟩

/-- What breaks the loading of settings off. -/
inductive Breaks (env : Environment) (file : Option (String × Contents)) (overrides : Draft) : Prop
  | broken {path : String} {contents : Contents} (given : file = some (path, contents))
      (broken : Document.Broken path contents)
  | overflow {f : Draft} (gives : Gives file f) (lower : Complete (overlay defaults f))
      (whole : Complete (layered env f overrides))
      (overflows : Overflows (layered env f overrides) durationPlaces)

theorem settled_ofDraft_bind_iff {g : Settings → Attempt β} (hg : ∀ s, Settled (g s)) :
    Settled (ofDraft d >>= g) ↔ ¬(Complete d ∧ Overflows d durationPlaces) := by
  rw [settled_bind_iff, and_iff_left fun s _ => hg s]
  by_cases hd : Complete d
  · rw [settled_ofDraft_iff hd, and_iff_right hd]
  · refine iff_of_true ?_ fun h => hd h.1
    unfold ofDraft
    refine settled_bind_iff.2 ⟨settled_checkSections d, fun d' hd' => ?_⟩
    exact absurd (checkSections_eq_ok_iff.1 hd').1 hd

theorem settled_draftOf_iff {path : String} {contents : Contents} :
    Settled (draftOf path contents) ↔ ¬Document.Broken path contents := by
  unfold draftOf
  rw [settled_bind_iff, Document.settled_members_iff rfl, and_iff_left]
  intro ms _
  cases ms with
  | none => exact settled_config rfl
  | some ms => exact settled_ok _

theorem settled_ofLayers_iff : Settled (ofLayers env (some f) overrides) ↔
    ¬(Complete (overlay defaults f) ∧ Complete (layered env f overrides) ∧
      Overflows (layered env f overrides) durationPlaces) := by
  unfold ofLayers
  rw [settled_bind_iff, and_iff_right (settled_checkSections _)]
  constructor
  · rintro h ⟨hlower, hwhole⟩
    have hrest := h _ (checkSections_eq_ok_iff.2 ⟨hlower, rfl⟩)
    exact (settled_ofDraft_bind_iff settled_checkRanges).1 hrest hwhole
  · intro h d hd
    obtain ⟨hlower, rfl⟩ := checkSections_eq_ok_iff.1 hd
    exact (settled_ofDraft_bind_iff settled_checkRanges).2 fun hwhole => h ⟨hlower, hwhole⟩

/-- Settings are loaded or refused unless one of these breaks it off. -/
theorem settled_load_iff : Settled (load env file overrides) ↔ ¬Breaks env file overrides := by
  cases file with
  | none =>
    have hload : load env none overrides = ofDraft (layered env [] overrides) >>= checkRanges := rfl
    rw [hload, settled_ofDraft_bind_iff settled_checkRanges]
    refine not_congr ⟨fun h => .overflow .nothing complete_defaults h.1 h.2, ?_⟩
    rintro (⟨given, -⟩ | ⟨gives, -, whole, overflows⟩)
    · cases given
    · cases gives
      exact ⟨whole, overflows⟩
  | some given =>
    obtain ⟨path, contents⟩ := given
    have hload : load env (some (path, contents)) overrides =
      draftOf path contents >>= fun f => ofLayers env (some f) overrides := rfl
    rw [hload, settled_bind_iff, settled_draftOf_iff]
    constructor
    · rintro ⟨hfile, hlayers⟩ (⟨given, broken⟩ | ⟨gives, lower, whole, overflows⟩)
      · cases given
        exact hfile broken
      · cases gives with
        | file hf => exact settled_ofLayers_iff.1 (hlayers _ hf) ⟨lower, whole, overflows⟩
    · intro h
      refine ⟨fun broken => h (.broken rfl broken), fun f hf => settled_ofLayers_iff.2 ?_⟩
      rintro ⟨lower, whole, overflows⟩
      exact h (.overflow (.file hf) lower whole overflows)

end FeltRelay.Settings

namespace FeltRelay.Server

variable {defaults : PollingDefaults} {base : Polling} {v : Json} {name path : String}
  {contents : Contents}

/-! ### Tables of servers -/

/-- A member is an integer beyond all numbers. -/
def IsLarge (v : Json) (name : String) : Prop :=
  ∃ i, v.member? name = some (.int i) ∧ Decimal.ofInt? i = none

theorem numberOr_cases (default : Float) (name : String) (v : Json) :
    (∃ x, numberOr default name v = .ok x ∧ ¬IsLarge v name) ∨
      ∃ i, numberOr default name v = .error (.tooLarge i) ∧ IsLarge v name := by
  unfold numberOr
  split
  · rename_i i hi
    cases hfits : Decimal.ofInt? i with
    | some x =>
      refine .inl ⟨x, rfl, ?_⟩
      rintro ⟨j, hj, hlarge⟩
      rw [hi] at hj
      cases hj
      rw [hfits] at hlarge
      cases hlarge
    | none => exact .inr ⟨i, rfl, i, hi, hfits⟩
  · rename_i x hx
    refine .inl ⟨x, rfl, ?_⟩
    rintro ⟨j, hj, -⟩
    rw [hx] at hj
    cases hj
  · rename_i hint _
    exact .inl ⟨default, rfl, fun ⟨j, hj, _⟩ => hint j hj⟩

/-- The numbers of polling limits. -/
def limitNames : List String := ["polling_interval", "request_timeout", "overall_timeout"]

theorem Polling.ofJson_cases (base : Polling) (v : Json) :
    (∃ p, Polling.ofJson base v = .ok p ∧ ∀ name ∈ limitNames, ¬IsLarge v name) ∨
      ∃ i, Polling.ofJson base v = .error (.tooLarge i) ∧ ∃ name ∈ limitNames, IsLarge v name := by
  unfold Polling.ofJson
  rcases numberOr_cases base.interval "polling_interval" v with ⟨x, hx, h₁⟩ | ⟨i, hi, h₁⟩
  · rcases numberOr_cases base.requestTimeout "request_timeout" v with ⟨y, hy, h₂⟩ | ⟨i, hi, h₂⟩
    · rcases numberOr_cases base.overallTimeout "overall_timeout" v with ⟨z, hz, h₃⟩ | ⟨i, hi, h₃⟩
      · refine .inl ⟨_, by rw [hx, hy, hz]; rfl, ?_⟩
        simp [limitNames, h₁, h₂, h₃]
      · exact .inr ⟨i, by rw [hx, hy, hi]; rfl, _, by simp [limitNames], h₃⟩
    · exact .inr ⟨i, by rw [hx, hi]; rfl, _, by simp [limitNames], h₂⟩
  · exact .inr ⟨i, by rw [hi]; rfl, _, by simp [limitNames], h₁⟩

/-- A number among the options of a server is an integer beyond all numbers. -/
inductive Overflows (v : Json) : Prop
  | timeout (large : IsLarge v "timeout")
  | limit {limits : Json} (given : v.member? "polling_config" = some limits) {name : String}
      (mem : name ∈ limitNames) (large : IsLarge limits name)

theorem not_overflows_str (address : String) : ¬Overflows (.str address) := by
  rintro (⟨i, hi, -⟩ | ⟨given, -, -⟩)
  · cases hi
  · cases given

theorem overflows_of_limits (h : IsLarge ((v.member? "polling_config").getD .null) name)
    (hname : name ∈ limitNames) : Overflows v := by
  cases hv : v.member? "polling_config" with
  | none =>
    obtain ⟨i, hi, -⟩ := h
    rw [hv] at hi
    cases hi
  | some limits =>
    rw [hv] at h
    exact .limit hv hname h

theorem timeoutOf_cases (v : Json) :
    (∃ t, timeoutOf v = .ok t ∧ ¬IsLarge v "timeout") ∨
      ∃ i, timeoutOf v = .error (.tooLarge i) ∧ IsLarge v "timeout" := by
  unfold timeoutOf
  split
  · rcases numberOr_cases 0.0 "timeout" v with ⟨x, hx, hsmall⟩ | ⟨i, hi, hlarge⟩
    · exact .inl ⟨some x, by rw [hx]; rfl, hsmall⟩
    · exact .inr ⟨i, by rw [hi]; rfl, hlarge⟩
  · rename_i hv
    refine .inl ⟨none, rfl, ?_⟩
    rintro ⟨i, hi, -⟩
    rw [hv] at hi
    cases hi

theorem Entry.ofJson_cases (base : Polling) (service : Yaml.Scalar) (v : Json) :
    (∃ e, Entry.ofJson base service v = .ok e ∧ e.service = service ∧ ¬Overflows v) ∨
      ∃ i, Entry.ofJson base service v = .error (.tooLarge i) ∧ Overflows v := by
  unfold Entry.ofJson
  split
  · exact .inl ⟨_, rfl, rfl, not_overflows_str _⟩
  · rcases Polling.ofJson_cases base ((v.member? "polling_config").getD .null) with
      ⟨limits, hlimits, hsmall⟩ | ⟨i, hi, name, hname, hlarge⟩
    · rcases timeoutOf_cases v with ⟨t, ht, hfits⟩ | ⟨i, hi, hlarge⟩
      · refine .inl ⟨_, by rw [hlimits, ok_bind, ht]; rfl, rfl, ?_⟩
        rintro (hlarge | ⟨given, hname, hlarge⟩)
        · exact hfits hlarge
        · exact hsmall _ hname (by rwa [given])
      · exact .inr ⟨i, by rw [hlimits, ok_bind, hi]; rfl, .timeout hlarge⟩
    · exact .inr ⟨i, by rw [hi]; rfl, overflows_of_limits hlarge hname⟩

/-- What breaks the loading of a table off: the file, or in a table of the right form a number, or
the want of an order. -/
inductive Table.Breaks (path : String) (contents : Contents) : Prop
  | broken (broken : Document.Broken path contents)
  | overflow {ms : Yaml.Named} {e : Yaml.Scalar × Json}
      (members : Document.members .servers path contents = .ok (some ms))
      (fit : fault? (some ms) = none) (mem : e ∈ ms) (overflows : Overflows e.2)
  | unordered {ms : Yaml.Named}
      (members : Document.members .servers path contents = .ok (some ms))
      (fit : fault? (some ms) = none)
      (mixed : Yaml.Scalar.comparable (ms.map (·.1)) = false)

theorem of_ofJson {base : Polling} {service : Yaml.Scalar} {e : Entry}
    (h : Entry.ofJson base service v = .ok e) : e.service = service ∧ ¬Overflows v := by
  rcases Entry.ofJson_cases base service v with ⟨e', he, hservice, hfits⟩ | ⟨i, hi, -⟩
  · rw [he] at h
    cases h
    exact ⟨hservice, hfits⟩
  · rw [hi] at h
    cases h

/-- Members of the right form give a table, unless a number is too large for one. -/
theorem Table.ofMembers_cases (defaults : PollingDefaults) {ms : Yaml.Named}
    (hfit : fault? (some ms) = none) :
    (∃ t, Table.ofMembers defaults (some ms) = .ok t ∧ t.entries.map (·.service) = ms.map (·.1) ∧
        ∀ e ∈ ms, ¬Overflows e.2) ∨
      ∃ i, Table.ofMembers defaults (some ms) = .error (.tooLarge i) ∧
        ∃ e ∈ ms, Overflows e.2 := by
  simp only [Table.ofMembers, hfit, Option.getD_some]
  cases hread : ms.mapM fun e => Entry.ofJson (Polling.ofDefaults defaults) e.1 e.2 with
  | ok entries =>
    refine .inl ⟨⟨entries⟩, rfl, ?_, ?_⟩
    · have hservices := forall₂_of_mapM hread
      exact (map_eq_of_forall₂ (hservices.imp fun e y hy => (of_ofJson hy).1.symm)).symm
    · intro e he
      obtain ⟨y, -, hy⟩ := exists_of_forall₂ (List.Forall₂.flip (forall₂_of_mapM hread)) he
      exact (of_ofJson hy).2
  | error p =>
    obtain ⟨e, he, hp⟩ := exists_of_mapM_error hread
    rcases Entry.ofJson_cases (Polling.ofDefaults defaults) e.1 e.2 with ⟨y, hy, -⟩ | ⟨i, hi, hover⟩
    · rw [hy] at hp
      cases hp
    · rw [hi] at hp
      cases hp
      exact .inr ⟨i, rfl, e, he, hover⟩

theorem settled_services_iff {t : Table} :
    Settled t.services ↔ Yaml.Scalar.comparable (t.entries.map (·.service)) = true := by
  unfold Table.services
  dsimp only
  split
  · rename_i h
    exact iff_of_true (settled_ok _) h
  · rename_i h
    refine iff_of_false (fun hsettled => ?_) h
    obtain ⟨f, hf, -⟩ := hsettled _ rfl
    cases hf

/-- A table is loaded or refused unless one of these breaks it off. -/
theorem settled_ofFile_iff :
    Settled (Table.ofFile defaults path contents) ↔ ¬Table.Breaks path contents := by
  unfold Table.ofFile
  rw [settled_bind_iff, Document.settled_members_iff rfl]
  constructor
  · rintro ⟨hfile, hrest⟩ (broken | ⟨members, fit, mem, overflows⟩ | ⟨members, fit, mixed⟩)
    · exact hfile broken
    · have h := hrest _ members
      rcases Table.ofMembers_cases defaults fit with ⟨t, -, -, hfits⟩ | ⟨i, hi, -⟩
      · exact hfits _ mem overflows
      · rw [hi] at h
        exact not_settled_tooLarge i h
    · have h := hrest _ members
      rcases Table.ofMembers_cases defaults fit with ⟨t, ht, hnames, -⟩ | ⟨i, hi, -⟩
      · rw [ht, ok_bind, settled_bind_iff, settled_services_iff, hnames, mixed] at h
        cases h.1
      · rw [hi] at h
        exact not_settled_tooLarge i h
  · intro h
    refine ⟨fun broken => h (.broken broken), fun ms members => ?_⟩
    cases hfault : fault? ms with
    | some place =>
      simp only [Table.ofMembers, hfault, error_bind]
      exact settled_config rfl
    | none =>
      cases ms with
      | none => cases hfault
      | some ms =>
        rcases Table.ofMembers_cases defaults hfault with
          ⟨t, ht, hnames, -⟩ | ⟨i, -, e, he, hover⟩
        · rw [ht, ok_bind, settled_bind_iff, settled_services_iff, hnames]
          refine ⟨?_, fun _ _ => settled_ok t⟩
          exact Bool.of_not_eq_false fun mixed => h (.unordered members hfault mixed)
        · exact absurd (Table.Breaks.overflow members hfault he hover) h

end FeltRelay.Server

namespace FeltRelay

open Settings Server

def breaksOff {α : Type} : Attempt α → Bool
  | .ok _ | .error (.failure _) => false
  | .error _ => true

theorem not_settled_of_breaksOff {α : Type} {r : Attempt α} (h : breaksOff r = true) :
    ¬Settled r := by
  cases r with
  | ok a => cases h
  | error p =>
    intro hsettled
    obtain ⟨f, rfl, -⟩ := hsettled p rfl
    cases h

/-- A number of seconds beyond all numbers. -/
def endless : Draft := [("polling", .obj [("interval_s", .int (10 ^ 400))])]

/-- A table whose services are a number and a text. -/
def mixed : List UInt8 := Text.Utf8.encode "1: h\na: h\n"

end FeltRelay
