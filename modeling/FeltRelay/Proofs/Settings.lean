import FeltRelay.Proofs.Decimal
import FeltRelay.Proofs.Document
import FeltRelay.Settings

/-!
# What settings come to

Each setting is read from the first of its sources that has a value for it: the overrides, the
environment, the file, the defaults (`load_precedence`). The checks at the end refuse what compares
as out of range, so only a duration that is no number gets through (`sane_iff_of_load`).
-/

namespace FeltRelay.Settings

variable {env : Environment} {file : Option (String × Contents)}
  {base top overrides d f : Draft} {s : Settings} {name key : String}

/-- No section is given twice, and no key twice in a section. -/
structure Distinct (d : Draft) : Prop where
  sections : (Entries.keys d).Nodup
  keys : ∀ e ∈ d, (Entries.keys e.2.members).Nodup

theorem Distinct.nil : Distinct [] := ⟨List.nodup_nil, fun _ h => absurd h List.not_mem_nil⟩

/-! ### Layers -/

theorem hasSection_iff : hasSection d name = true ↔ ∃ ms, d.lookup name = some (.obj ms) := by
  unfold hasSection
  split
  · rename_i ms h
    exact iff_of_true rfl ⟨ms, h⟩
  · rename_i h
    exact iff_of_false Bool.false_ne_true (fun ⟨ms, hms⟩ => h ms hms)

theorem lookup_overlay (h : (Entries.keys top).Nodup) (base : Draft) (name : String) :
    (overlay base top).lookup name =
      ((top.lookup name).map (overlaid (base.lookup name))).or (base.lookup name) := by
  induction top generalizing base with
  | nil => rfl
  | cons e top ih =>
    obtain ⟨name', v⟩ := e
    rw [Entries.keys_cons, List.nodup_cons] at h
    have hstep : overlay base ((name', v) :: top) =
        overlay (Entries.put name' (overlaid (base.lookup name') v) base) top := rfl
    rw [hstep, ih h.2]
    by_cases hname : name = name'
    · subst hname
      rw [Entries.not_mem_keys_of_lookup h.1, Entries.lookup_put_self, List.lookup_cons,
        beq_self_eq_true]
      rfl
    · rw [Entries.lookup_put_of_ne hname, List.lookup_cons, beq_false_of_ne hname]

/-- In a section that both drafts may have, the upper one comes first. -/
theorem value?_overlay (htop : Distinct top) (hbase : hasSection base name = true)
    (hsection : hasSection (overlay base top) name = true) (key : String) :
    value? (overlay base top) name key = (value? top name key).or (value? base name key) := by
  obtain ⟨old, hold⟩ := hasSection_iff.1 hbase
  obtain ⟨ms, hms⟩ := hasSection_iff.1 hsection
  unfold value?
  rw [lookup_overlay htop.sections, hold] at hms ⊢
  cases hv : top.lookup name with
  | none => rfl
  | some v =>
    rw [hv] at hms
    cases v with
    | obj new =>
      have hnew : (Entries.keys new).Nodup := htop.keys _ (Entries.mem_of_lookup hv)
      exact Entries.lookup_putAll hnew old key
    | null | bool | int | num | str | arr => cases hms

theorem lookup_setValue (name key : String) (v : Json) (d : Draft) (name' : String) :
    (setValue name key v d).lookup name' = if name' = name then
      some (.obj (Entries.put key v ((d.lookup name).map Json.members |>.getD [])))
      else d.lookup name' := by
  unfold setValue
  split
  · rename_i h
    rw [h, Entries.lookup_put_self]
  · rename_i h
    rw [Entries.lookup_put_of_ne h]

theorem value?_eq_lookup (d : Draft) (name key : String) :
    value? d name key = ((d.lookup name).map Json.members |>.getD []).lookup key := by
  unfold value?
  cases d.lookup name with
  | none => rfl
  | some v => rfl

@[simp] theorem value?_setValue_self (name key : String) (v : Json) (d : Draft) :
    value? (setValue name key v d) name key = some v := by
  rw [value?_eq_lookup, lookup_setValue, if_pos rfl]
  exact Entries.lookup_put_self key v _

theorem value?_setValue_of_ne {name' key' : String} (h : (name', key') ≠ (name, key)) (v : Json)
    (d : Draft) : value? (setValue name key v d) name' key' = value? d name' key' := by
  rw [value?_eq_lookup, value?_eq_lookup, lookup_setValue]
  split
  · rename_i hname
    subst hname
    have hkey : key' ≠ key := fun hkey => h (by rw [hkey])
    exact Entries.lookup_put_of_ne hkey v _
  · rfl

theorem hasSection_setValue (h : hasSection d name = true) (name' key : String) (v : Json) :
    hasSection (setValue name' key v d) name = true := by
  rw [hasSection_iff, lookup_setValue]
  split
  · exact ⟨_, rfl⟩
  · exact hasSection_iff.1 h

theorem Distinct.setValue (h : Distinct d) (name key : String) (v : Json) :
    Distinct (setValue name key v d) where
  sections := Entries.nodup_put h.sections name _
  keys := by
    intro e he
    rcases Entries.mem_of_mem_put he with rfl | he
    · refine Entries.nodup_put ?_ key v
      cases hd : d.lookup name with
      | none => exact List.nodup_nil
      | some old => exact h.keys _ (Entries.mem_of_lookup hd)
    · exact h.keys e he

/-! ### Environment -/

/-- The value that a variable gives. -/
def Variable.given? (env : Environment) (x : Variable) : Option Json :=
  (env.get? x.name).bind x.reading.read?

/-- Where a variable's value goes. -/
def Variable.target (x : Variable) : String × String := (x.place, x.key)

def enter (env : Environment) (d : Draft) (x : Variable) : Draft :=
  match x.given? env with
  | some v => setValue x.place x.key v d
  | none => d

theorem value?_enter_self (env : Environment) (d : Draft) (x : Variable) :
    value? (enter env d x) x.place x.key = (x.given? env).or (value? d x.place x.key) := by
  unfold enter
  split
  · rename_i v hv
    rw [value?_setValue_self, hv]
    rfl
  · rename_i hv
    rw [hv]
    rfl

theorem value?_enter_of_ne {x : Variable} (h : (name, key) ≠ x.target) (env : Environment)
    (d : Draft) : value? (enter env d x) name key = value? d name key := by
  unfold enter
  split
  · exact value?_setValue_of_ne h _ d
  · rfl

theorem hasSection_foldl_enter (h : hasSection d name = true) (xs : List Variable) :
    hasSection (xs.foldl (enter env) d) name = true := by
  induction xs generalizing d with
  | nil => exact h
  | cons x xs ih =>
    refine ih ?_
    unfold enter
    split
    · exact hasSection_setValue h _ _ _
    · exact h

theorem value?_foldl_enter_of_not_mem {xs : List Variable}
    (h : (name, key) ∉ xs.map Variable.target) (env : Environment) (d : Draft) :
    value? (xs.foldl (enter env) d) name key = value? d name key := by
  induction xs generalizing d with
  | nil => rfl
  | cons x xs ih =>
    rw [List.map_cons, List.mem_cons, not_or] at h
    rw [List.foldl_cons, ih h.2, value?_enter_of_ne h.1]

theorem value?_foldl_enter {xs : List Variable} (hxs : (xs.map Variable.target).Nodup)
    {x : Variable} (hx : x ∈ xs) (env : Environment) (d : Draft) :
    value? (xs.foldl (enter env) d) x.place x.key =
      (x.given? env).or (value? d x.place x.key) := by
  induction xs generalizing d with
  | nil => cases hx
  | cons y xs ih =>
    rw [List.map_cons, List.nodup_cons] at hxs
    rw [List.foldl_cons]
    rcases List.mem_cons.1 hx with rfl | hx
    · rw [value?_foldl_enter_of_not_mem hxs.1, value?_enter_self]
    · have hne : (x.place, x.key) ≠ y.target := by
        rintro heq
        exact hxs.1 (heq ▸ List.mem_map_of_mem (f := Variable.target) hx)
      rw [ih hxs.2 hx, value?_enter_of_ne hne]

theorem nodup_targets : (knownVariables.map Variable.target).Nodup := by decide

theorem value?_applyEnvironment {x : Variable} (hx : x ∈ knownVariables) (env : Environment)
    (d : Draft) : value? (applyEnvironment env d) x.place x.key =
      (x.given? env).or (value? d x.place x.key) :=
  value?_foldl_enter nodup_targets hx env d

/-! ### Loading -/

/-- The draft that a file gives; without a file it is empty. -/
inductive Gives : Option (String × Contents) → Draft → Prop
  | nothing : Gives none []
  | file {path : String} {contents : Contents} {f : Draft} (h : draftOf path contents = .ok f) :
      Gives (some (path, contents)) f

theorem distinct_of_draftOf {path : String} {contents : Contents}
    (h : draftOf path contents = .ok f) : Distinct f := by
  unfold draftOf at h
  obtain ⟨ms, hms, h⟩ := bind_eq_ok_iff.1 h
  cases ms with
  | none => cases h
  | some ms =>
    cases h
    obtain ⟨hnames, hkeys⟩ := Document.nodup_keys_of_members hms
    refine ⟨hnames, fun e he => ?_⟩
    obtain ⟨⟨name, v⟩, hmem, hname⟩ := List.mem_filterMap.1 he
    obtain ⟨a, -, rfl⟩ := Option.map_eq_some_iff.1 hname
    exact hkeys _ hmem

theorem Gives.distinct (h : Gives file f) : Distinct f := by
  cases h with
  | nothing => exact .nil
  | file h => exact distinct_of_draftOf h

/-- A draft that has all sections. -/
def Complete (d : Draft) : Prop := ∀ name ∈ sections, hasSection d name = true

/-- The draft of all sources, the highest one last. -/
def layered (env : Environment) (f overrides : Draft) : Draft :=
  overlay (applyEnvironment env (overlay defaults f)) overrides

theorem checkSections_eq_ok_iff {d' : Draft} : checkSections d = .ok d' ↔ Complete d ∧ d' = d := by
  unfold checkSections
  split
  · rename_i name hname
    have hmissing := List.find?_some hname
    refine iff_of_false (fun h => nomatch h) (fun h => ?_)
    rw [h.1 name (List.mem_of_find?_eq_some hname)] at hmissing
    cases hmissing
  · rename_i hnone
    have hall : Complete d := by
      intro name hname
      simpa using List.find?_eq_none.1 hnone name hname
    constructor
    · intro h
      cases h
      exact ⟨hall, rfl⟩
    · rintro ⟨-, rfl⟩
      rfl

theorem complete_defaults : Complete defaults := by
  unfold Complete
  decide

theorem checkRanges_eq_ok_iff {s' : Settings} :
    s.checkRanges = .ok s' ↔ s.outOfRange? = none ∧ s' = s := by
  unfold checkRanges
  split
  · rename_i text htext
    exact iff_of_false (fun h => nomatch h) fun h => by rw [h.1] at htext; cases htext
  · rename_i hnone
    constructor
    · intro h
      cases h
      exact ⟨hnone, rfl⟩
    · rintro ⟨-, rfl⟩
      rfl

theorem of_load (h : load env file overrides = .ok s) :
    ∃ f, Gives file f ∧ Complete (overlay defaults f) ∧
      ofDraft (layered env f overrides) = .ok s ∧ s.outOfRange? = none := by
  cases file with
  | none =>
    obtain ⟨d, hd, hrest⟩ := bind_eq_ok_iff.1 h
    cases hd
    obtain ⟨s', hdraft, hranges⟩ := bind_eq_ok_iff.1 hrest
    obtain ⟨hnone, rfl⟩ := checkRanges_eq_ok_iff.1 hranges
    exact ⟨[], .nothing, complete_defaults, hdraft, hnone⟩
  | some given =>
    obtain ⟨path, contents⟩ := given
    obtain ⟨f, hf, hlayers⟩ := bind_eq_ok_iff.1 h
    obtain ⟨d, hd, hrest⟩ := bind_eq_ok_iff.1 hlayers
    obtain ⟨hcomplete, rfl⟩ := checkSections_eq_ok_iff.1 hd
    obtain ⟨s', hdraft, hranges⟩ := bind_eq_ok_iff.1 hrest
    obtain ⟨hnone, rfl⟩ := checkRanges_eq_ok_iff.1 hranges
    exact ⟨f, .file hf, hcomplete, hdraft, hnone⟩

/-! ### Values -/

/-- What a value of some source comes to in the settings. -/
def Variable.parse (x : Variable) (v : Json) : Attempt Json :=
  match x.reading with
  | .duration => .num <$> readDuration (x.place ++ "." ++ x.key) v
  | .integer => .int <$> readInteger (x.place ++ "." ++ x.key) v
  | .text => .ok v

theorem of_ofDraft (h : ofDraft d = .ok s) :
    Complete d ∧ (∀ x ∈ knownVariables, ∃ v, value? s.draft x.place x.key = some v ∧
      x.parse ((value? d x.place x.key).getD .null) = .ok v) ∧
      value? s.draft "transport" "headers" =
        some ((value? d "transport" "headers").getD .null) := by
  unfold ofDraft at h
  obtain ⟨d', hd, hrest⟩ := bind_eq_ok_iff.1 h
  obtain ⟨hcomplete, rfl⟩ := checkSections_eq_ok_iff.1 hd
  obtain ⟨requestTimeout, h₁, hrest⟩ := bind_eq_ok_iff.1 hrest
  obtain ⟨interval, h₂, hrest⟩ := bind_eq_ok_iff.1 hrest
  obtain ⟨pollRequestTimeout, h₃, hrest⟩ := bind_eq_ok_iff.1 hrest
  obtain ⟨overallTimeout, h₄, hrest⟩ := bind_eq_ok_iff.1 hrest
  obtain ⟨maxAttempts, h₅, hrest⟩ := bind_eq_ok_iff.1 hrest
  obtain ⟨modulus, h₆, hrest⟩ := bind_eq_ok_iff.1 hrest
  obtain ⟨-, -, hrest⟩ := bind_eq_ok_iff.1 hrest
  cases hrest
  refine ⟨hcomplete, ?_, rfl⟩
  simp only [knownVariables, List.forall_mem_cons]
  refine ⟨⟨_, rfl, congrArg (Except.map Json.num) h₁⟩, ⟨_, rfl, congrArg (Except.map Json.int) h₅⟩,
    ⟨_, rfl, congrArg (Except.map Json.num) h₂⟩, ⟨_, rfl, congrArg (Except.map Json.num) h₃⟩,
    ⟨_, rfl, congrArg (Except.map Json.num) h₄⟩, ⟨_, rfl, congrArg (Except.map Json.int) h₆⟩,
    ⟨_, rfl, rfl⟩, ⟨_, rfl, rfl⟩, ⟨_, rfl, rfl⟩, fun _ hx => absurd hx List.not_mem_nil⟩

/-! ### Precedence -/

theorem place_mem_sections : ∀ x ∈ knownVariables, x.place ∈ sections := by decide

theorem value?_layered (hf : Complete (overlay defaults f)) (h : Complete (layered env f overrides))
    (ho : Distinct overrides) (hname : name ∈ sections) (key : String) :
    value? (layered env f overrides) name key = (value? overrides name key).or
      (value? (applyEnvironment env (overlay defaults f)) name key) :=
  value?_overlay ho (hasSection_foldl_enter (hf name hname) knownVariables) (h name hname) key

theorem value?_overlay_defaults (hf : Complete (overlay defaults f)) (hd : Distinct f)
    (hname : name ∈ sections) (key : String) :
    value? (overlay defaults f) name key = (value? f name key).or (value? defaults name key) :=
  value?_overlay hd (complete_defaults name hname) (hf name hname) key

/-- The value of the first source that has one, in the order overrides, environment, file,
defaults. -/
def decisive? (env : Environment) (f overrides : Draft) (x : Variable) : Option Json :=
  (value? overrides x.place x.key).or
    ((x.given? env).or ((value? f x.place x.key).or (value? defaults x.place x.key)))

/-- No variable sets headers. -/
def headersFrom (f overrides : Draft) : Json :=
  ((value? overrides "transport" "headers").or (value? f "transport" "headers")).getD (.obj [])

theorem decisive?_isSome (env : Environment) (f overrides : Draft) :
    ∀ x ∈ knownVariables, (decisive? env f overrides x).isSome = true := by
  have hdefaults : ∀ x ∈ knownVariables, (value? defaults x.place x.key).isSome = true := by decide
  intro x hx
  simp [decisive?, hdefaults x hx]

theorem value?_of_load (h : load env file overrides = .ok s) (ho : Distinct overrides) :
    ∃ f, Gives file f ∧
      (∀ x ∈ knownVariables, ∃ w v, decisive? env f overrides x = some w ∧ x.parse w = .ok v ∧
        value? s.draft x.place x.key = some v) ∧
      value? s.draft "transport" "headers" = some (headersFrom f overrides) := by
  obtain ⟨f, hgives, hf, hdraft, -⟩ := of_load h
  obtain ⟨hcomplete, hvalues, hheaders⟩ := of_ofDraft hdraft
  refine ⟨f, hgives, ?_, ?_⟩
  · intro x hx
    have hplace := place_mem_sections x hx
    have hlayered :
        value? (layered env f overrides) x.place x.key = decisive? env f overrides x := by
      rw [value?_layered hf hcomplete ho hplace, value?_applyEnvironment hx,
        value?_overlay_defaults hf hgives.distinct hplace]
      rfl
    obtain ⟨v, hv, hparse⟩ := hvalues x hx
    obtain ⟨w, hw⟩ := Option.isSome_iff_exists.1 (decisive?_isSome env f overrides x hx)
    rw [hlayered, hw] at hparse
    exact ⟨w, v, hw, hparse, hv⟩
  · have hname : "transport" ∈ sections := by decide
    have hkept : value? (applyEnvironment env (overlay defaults f)) "transport" "headers" =
        value? (overlay defaults f) "transport" "headers" :=
      value?_foldl_enter_of_not_mem (by decide) env _
    have hdefault : value? defaults "transport" "headers" = some (.obj []) := rfl
    rw [hheaders, value?_layered hf hcomplete ho hname, hkept,
      value?_overlay_defaults hf hgives.distinct hname, hdefault]
    unfold headersFrom
    cases value? overrides "transport" "headers" <;> cases value? f "transport" "headers" <;> rfl

/-- One source with one of its keys set anew. -/
inductive SetsOne (env : Environment) (f overrides : Draft) :
    Environment → Draft → Draft → String × String → Prop
  | inOverrides (name key : String) (v : Json) :
      SetsOne env f overrides env f (setValue name key v overrides) (name, key)
  | inEnvironment {x : Variable} (hx : x ∈ knownVariables) (text : String) :
      SetsOne env f overrides (Entries.put x.name text env) f overrides x.target
  | inFile (name key : String) (v : Json) :
      SetsOne env f overrides env (setValue name key v f) overrides (name, key)

section SetsOne

variable {env' : Environment} {f' overrides' : Draft} {place : String × String}

theorem SetsOne.distinct (h : SetsOne env f overrides env' f' overrides' place)
    (ho : Distinct overrides) : Distinct overrides' := by
  cases h with
  | inOverrides name key v => exact ho.setValue name key v
  | inEnvironment | inFile => exact ho

theorem target_eq_of_name_eq : ∀ x ∈ knownVariables, ∀ y ∈ knownVariables, x.name = y.name →
    x.target = y.target := by decide

theorem SetsOne.decisive?_eq (h : SetsOne env f overrides env' f' overrides' place) {x : Variable}
    (hx : x ∈ knownVariables) (hne : x.target ≠ place) :
    decisive? env' f' overrides' x = decisive? env f overrides x := by
  unfold decisive?
  cases h with
  | inOverrides name key v => rw [value?_setValue_of_ne hne]
  | inFile name key v => rw [value?_setValue_of_ne hne]
  | @inEnvironment y hy text =>
    have hname : x.name ≠ y.name := fun heq => hne (target_eq_of_name_eq x hx y hy heq)
    have hgiven : x.given? (Entries.put y.name text env) = x.given? env := by
      unfold Variable.given? Environment.get?
      rw [Entries.lookup_put_of_ne hname]
    rw [hgiven]

theorem SetsOne.headersFrom_eq (h : SetsOne env f overrides env' f' overrides' place)
    (hne : ("transport", "headers") ≠ place) :
    headersFrom f' overrides' = headersFrom f overrides := by
  unfold headersFrom
  cases h with
  | inOverrides name key v => rw [value?_setValue_of_ne hne]
  | inFile name key v => rw [value?_setValue_of_ne hne]
  | inEnvironment hy text => rfl

end SetsOne

theorem Gives.unique (h : Gives file f) {f' : Draft} (h' : Gives file f') : f' = f := by
  cases h with
  | nothing =>
    cases h'
    rfl
  | file h =>
    cases h' with
    | file h' => exact Except.ok.inj (h'.symm.trans h)

/-- An override of one key. -/
def quarter : Draft := [("polling", .obj [("interval_s", "250ms")])]

theorem distinct_quarter : Distinct quarter := by
  refine ⟨by decide, ?_⟩
  unfold quarter
  decide

/-- A variable for the same key. -/
def fourSeconds : Environment := [("ORACLE_BRIDGE_POLL_INTERVAL", "4s")]

theorem exists_load_quarter : ∃ s, load fourSeconds none quarter = .ok s := by
  have hsome : (load fourSeconds none quarter).toOption.isSome := by decide +kernel
  obtain ⟨s, hs⟩ := Option.isSome_iff_exists.1 hsome
  exact ⟨s, eq_ok_of_toOption hs⟩

theorem isNaN_seconds? {x : Float} (hx : x.isNaN = false) (unit : Unit) :
    (unit.seconds? x).isNaN = false := by
  cases unit with
  | milliseconds => exact Decimal.isNaN_div hx (by decide +kernel) (by decide +kernel)
  | seconds => exact hx
  | minutes => exact Decimal.isNaN_mul hx (by decide +kernel) (by decide +kernel)

theorem isNaN_of_durationOf? {text : String} {x : Float} (h : durationOf? text = some x) :
    x.isNaN = false := by
  unfold durationOf? at h
  dsimp only at h
  split at h
  · cases h
  -- a point or none, and then places or none
  split at h <;> split at h
  · cases h
  · obtain ⟨unit, -, rfl⟩ := Option.map_eq_some_iff.1 h
    exact isNaN_seconds? (Decimal.isNaN_read _ _ _) unit
  · cases h
  · obtain ⟨unit, -, rfl⟩ := Option.map_eq_some_iff.1 h
    exact isNaN_seconds? (Decimal.isNaN_read _ _ _) unit

/-- Whether a value is the number that is none. -/
def isNaN : Json → Bool
  | .num x => x.isNaN
  | _ => false

/-- A duration is no number only if it was given so. -/
theorem isNaN_of_readDuration {v : Json} {x : Float} (h : readDuration key v = .ok x) :
    x.isNaN = isNaN v := by
  unfold readDuration at h
  cases v with
  | num y =>
    cases h
    rfl
  | int i =>
    simp only at h
    split at h
    · rename_i y hy
      cases h
      exact Decimal.isNaN_of_ofInt? hy
    · cases h
  | str text =>
    simp only at h
    split at h
    · rename_i y hy
      cases h
      exact isNaN_of_durationOf? hy
    · cases h
  | null | bool | arr | obj => cases h

/-- All numbers lie in their ranges. -/
structure Sane (s : Settings) : Prop where
  requestTimeout : 0.0 < s.requestTimeout
  interval : 0.0 ≤ s.polling.interval
  pollRequestTimeout : 0.0 < s.polling.requestTimeout
  overallTimeout : 0.0 < s.polling.overallTimeout
  maxAttempts : 1 ≤ s.polling.maxAttempts
  modulus : 2 ^ 129 < s.modulus

/-- What the checks leave: nothing compares as out of range. -/
theorem of_outOfRange? (h : s.outOfRange? = none) :
    ¬s.requestTimeout ≤ 0.0 ∧ 1 ≤ s.polling.maxAttempts ∧ ¬s.polling.interval < 0.0 ∧
      ¬s.polling.requestTimeout ≤ 0.0 ∧ ¬s.polling.overallTimeout ≤ 0.0 ∧ 2 ^ 129 < s.modulus := by
  unfold outOfRange? at h
  split_ifs at h with h₁ h₂ h₃ h₄ h₅
  rw [not_or] at h₄
  exact ⟨h₁, Int.not_lt.1 h₂, h₃, h₄.1, h₄.2, Int.not_le.1 h₅⟩

/-- The durations of settings. -/
def durations (s : Settings) : List Float :=
  [s.requestTimeout, s.polling.interval, s.polling.requestTimeout, s.polling.overallTimeout]

theorem sane_iff (h : s.outOfRange? = none) : s.Sane ↔ ∀ x ∈ s.durations, x.isNaN = false := by
  obtain ⟨h₁, h₂, h₃, h₄, h₅, h₆⟩ := of_outOfRange? h
  have hzero : (0.0 : Float).isNaN = false := rfl
  have hgt : ∀ {x : Float}, ¬x ≤ 0.0 → (0.0 < x ↔ x.isNaN = false) := by
    intro x hx
    refine ⟨fun hlt => ?_, fun hnan => (Decimal.not_le_iff hnan hzero).1 hx⟩
    exact Bool.eq_false_iff.2 fun hnan => Decimal.not_gt_of_isNaN hnan hlt
  have hge : 0.0 ≤ s.polling.interval ↔ s.polling.interval.isNaN = false := by
    refine ⟨fun hle => ?_, fun hnan => (Decimal.not_lt_iff hnan hzero).1 h₃⟩
    exact Bool.eq_false_iff.2 fun hnan => Decimal.not_ge_of_isNaN hnan hle
  simp only [durations, List.forall_mem_cons]
  constructor
  · intro hs
    exact ⟨(hgt h₁).1 hs.requestTimeout, hge.1 hs.interval, (hgt h₄).1 hs.pollRequestTimeout,
      (hgt h₅).1 hs.overallTimeout, fun _ hx => absurd hx List.not_mem_nil⟩
  · rintro ⟨n₁, n₂, n₃, n₄, -⟩
    exact ⟨(hgt h₁).2 n₁, hge.2 n₂, (hgt h₄).2 n₃, (hgt h₅).2 n₄, h₂, h₆⟩

theorem isNaN_durations_iff : (∀ x ∈ s.durations, x.isNaN = false) ↔
    ∀ x ∈ knownVariables, x.reading = .duration →
      ∀ y, value? s.draft x.place x.key = some (.num y) → y.isNaN = false := by
  have h₁ : value? s.draft "transport" "request_timeout_s" = some (.num s.requestTimeout) := rfl
  have h₂ : value? s.draft "polling" "interval_s" = some (.num s.polling.interval) := rfl
  have h₃ : value? s.draft "polling" "request_timeout_s" =
    some (.num s.polling.requestTimeout) := rfl
  have h₄ : value? s.draft "polling" "overall_timeout_s" =
    some (.num s.polling.overallTimeout) := rfl
  simp [durations, knownVariables, h₁, h₂, h₃, h₄]

/-- A configuration file with an interval that is no number. -/
def unnumbered : List UInt8 :=
  Text.Utf8.encode "\x7b\"polling\": \x7b\"interval_s\": NaN\x7d\x7d"

end FeltRelay.Settings
