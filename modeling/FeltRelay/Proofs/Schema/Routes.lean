import FeltRelay.Proofs.Schema.Selector
import Mathlib.Data.List.Find

/-!
# Routes to methods

A method goes by its name, its selector and its path. In the model of a definitions text its name
and its selector are its own, but its selector may be the path of another method of the service:
asked for by its selector, it is hidden behind a method before it with that path
(`methodTypes_of_ofText`).
-/

namespace FeltRelay.Schema

/-- The messages that a method takes and gives. -/
def Method.types (x : Method) : String × String := (x.request, x.response)

namespace Model

/-- The messages that the method of a service takes and gives, which goes by a name, a selector or a
path. -/
def methodTypes (m : Model) (service method : String) : Except Failure (String × String) :=
  (m.findMethod service method).map Method.types

variable {m : Model} {text : String}

/-! ### Methods of a sound model -/

section

variable {s : Service}

theorem service?_of_mem (h : m.Sound) (hs : s ∈ m.services) : m.service? s.name = some s :=
  Entries.find?_of_nodup h.services hs

theorem findMethod_name (h : m.Sound) (hs : s ∈ m.services) {x : Method} (hx : x ∈ s.methods) :
    m.findMethod s.name x.name = .ok x := by
  have hnamed : s.methods.find? (·.name = x.name) = some x :=
    Entries.find?_of_nodup (h.methods s hs) hx
  rw [findMethod, service?_of_mem h hs, Option.bind_some, hnamed]
  rfl

theorem findSelector_selector (h : (m.methods.map (·.2.selector)).Nodup) (hs : s ∈ m.services)
    {x : Method} (hx : x ∈ s.methods) : m.findSelector x.selector = .ok (s.name, x) := by
  have hmem : (s.name, x) ∈ m.methods := mem_methods.2 ⟨s, hs, hx, rfl⟩
  have hfound : m.methods.find? (·.2.selector = x.selector) = some (s.name, x) :=
    Entries.find?_of_nodup h hmem
  rw [findSelector, hfound]

end

/-! ### Methods of a definitions text -/

section

variable {s : Service} {before after : List Method} {x : Method}

/-- Selectors differ within a service. -/
theorem eq_of_selector_eq (h : (m.methods.map (·.2.selector)).Nodup) (hs : s ∈ m.services)
    {y : Method} (hx : x ∈ s.methods) (hy : y ∈ s.methods) (heq : y.selector = x.selector) :
    y = x := by
  have hfound := findSelector_selector h hs hx
  rw [← heq, findSelector_selector h hs hy] at hfound
  exact (Prod.mk.inj (Except.ok.inj hfound)).2

/-- No other method has a selector as its name, since that is its own selector. -/
theorem eq_of_name_eq_selector (h : ofText text = .ok m) (hs : s ∈ m.services) {y : Method}
    (hx : x ∈ s.methods) (hy : y ∈ s.methods) (heq : y.name = x.selector) : y = x := by
  have hxs := spelled_of_ofText h s hs x hx
  have hys := spelled_of_ofText h s hs y hy
  apply eq_of_selector_eq (selectors_of_ofText h).1 hs hx hy
  calc y.selector = Naming.selectorOf x.selector := by rw [hys.selector, heq]
    _ = x.selector := hxs.selectorOf_selector

theorem not_mem_before (h : (s.methods.map (·.name)).Nodup)
    (hx : s.methods = before ++ x :: after) : x ∉ before := by
  have hnodup : (before ++ x :: after).Nodup := hx ▸ List.Nodup.of_map _ h
  intro hmem
  exact (List.nodup_append.1 hnodup).2.2 x hmem x (List.mem_cons_self ..) rfl

/-- What a method's selector finds within its service. -/
def bySelector (before : List Method) (x : Method) : Method :=
  if x.name = x.selector then x else (before.find? (·.path = x.selector)).getD x

theorem findMethod_selector (h : ofText text = .ok m) (hs : s ∈ m.services)
    (hx : s.methods = before ++ x :: after) :
    m.findMethod s.name x.selector = .ok (bySelector before x) := by
  have hmem : x ∈ s.methods := by simp [hx]
  unfold findMethod bySelector
  rw [service?_of_mem (sound_of_ofText h) hs, Option.bind_some]
  split
  · rename_i hname
    have hnamed : s.methods.find? (·.name = x.selector) = some x := by
      rw [← hname]
      exact Entries.find?_of_nodup ((sound_of_ofText h).methods s hs) hmem
    rw [hnamed]
    rfl
  · rename_i hname
    have hnamed : s.methods.find? (·.name = x.selector) = none := by
      rw [List.find?_eq_none]
      intro y hy heq
      have hyx := eq_of_name_eq_selector h hs hmem hy (by simpa using heq)
      rw [hyx] at heq
      exact hname (by simpa using heq)
    -- Before the method itself only a path can be the selector, as selectors differ.
    have hbefore : before.find? (fun y => y.selector = x.selector || y.path = x.selector) =
        before.find? (·.path = x.selector) := by
      refine List.find?_congr fun y hy => ?_
      have hne : y.selector ≠ x.selector := by
        intro heq
        have hyx := eq_of_selector_eq (selectors_of_ofText h).1 hs hmem (by simp [hx, hy]) heq
        exact not_mem_before ((sound_of_ofText h).methods s hs) hx (hyx ▸ hy)
      rw [decide_eq_false hne, Bool.false_or]
    have hself : (decide (x.selector = x.selector) || decide (x.path = x.selector)) = true := by
      simp
    rw [hnamed, Option.none_or, hx, List.find?_append, hbefore, List.find?_cons, hself]
    cases before.find? (·.path = x.selector) <;> rfl

end

/-- In the model of a definitions text a method is found by its name, and by its selector among the
selectors of all services. By its selector within its service it is found too, unless that selector
is not its name and is the path of a method before it: then the first such method is found. -/
theorem methodTypes_of_ofText (h : ofText text = .ok m) {s : Service} (hs : s ∈ m.services)
    {before after : List Method} {x : Method} (hx : s.methods = before ++ x :: after) :
    m.methodTypes s.name x.name = .ok x.types ∧
      m.findSelector x.selector = .ok (s.name, x) ∧
      (m.methodTypes s.name x.selector = .ok x.types ↔ x.name = x.selector ∨
        ∀ y, before.find? (·.path = x.selector) = some y → y.types = x.types) := by
  have hmem : x ∈ s.methods := by simp [hx]
  refine ⟨?_, findSelector_selector (selectors_of_ofText h).1 hs hmem, ?_⟩
  · rw [methodTypes, findMethod_name (sound_of_ofText h) hs hmem, map_ok]
  rw [methodTypes, findMethod_selector h hs hx, map_ok, Except.ok.injEq, bySelector]
  by_cases hname : x.name = x.selector
  · rw [if_pos hname]
    exact iff_of_true rfl (.inl hname)
  rw [if_neg hname]
  cases hfirst : before.find? (·.path = x.selector) with
  | none => exact iff_of_true rfl (.inr fun y hy => nomatch hy)
  | some y =>
    rw [Option.getD_some]
    constructor
    · intro heq
      refine .inr fun z hz => ?_
      cases hz
      exact heq
    · rintro (heq | hall)
      · exact absurd heq hname
      · exact hall y rfl

/-- Two methods of which the second has the path of the first as its selector. -/
def crossedText : String :=
  "message A \x7b u8 a = 1; \x7d message B \x7b u8 b = 1; \x7d
   service S \x7b rpc aB_c (A) returns (A); rpc abC (B) returns (B); \x7d"

/-- The model of `crossedText`. -/
def crossed : Model where
  package := none
  messages := [⟨"A", [⟨"a", .scalar (.unsigned .w8)⟩]⟩, ⟨"B", [⟨"b", .scalar (.unsigned .w8)⟩]⟩]
  enums := []
  services := [⟨"S", [⟨"aB_c", "a_b_c", "ab_c", "A", "A"⟩, ⟨"abC", "ab_c", "abc", "B", "B"⟩]⟩]

theorem ofText_crossedText : ofText crossedText = .ok crossed := by
  rw [ofText, Definitions.Declarations.ofText, Definitions.tokenize, crossedText,
    String.toList_ofList]
  exact eq_ok_of_toOption (by decide +kernel)

theorem methodTypes_crossed_first : ofText crossedText = .ok crossed ∧
    crossed.methodTypes "S" "aB_c" = .ok ("A", "A") ∧
    crossed.findSelector "a_b_c" = .ok ("S", ⟨"aB_c", "a_b_c", "ab_c", "A", "A"⟩) ∧
    crossed.methodTypes "S" "a_b_c" = .ok ("A", "A") := by
  obtain ⟨hname, hselector, hiff⟩ := methodTypes_of_ofText ofText_crossedText
    (List.mem_singleton_self _) (List.nil_append _).symm
  exact ⟨ofText_crossedText, hname, hselector, hiff.2 (.inr fun y hy => nomatch hy)⟩

/-- By its selector the second method is not found within its service, although it is found by that
selector among all services. -/
theorem methodTypes_crossed_second : ofText crossedText = .ok crossed ∧
    crossed.findSelector "ab_c" = .ok ("S", ⟨"abC", "ab_c", "abc", "B", "B"⟩) ∧
    crossed.methodTypes "S" "ab_c" = .ok ("A", "A") :=
  ⟨ofText_crossedText, rfl, rfl⟩

end Model

end FeltRelay.Schema
