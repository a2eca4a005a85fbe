import FeltRelay.Proofs.Dispatch.Ask
import FeltRelay.Proofs.Schema.Routes
import FeltRelay.Proofs.Text.Literal

/-!
# Endpoints of methods

A request is sent to the address of the service's server and the path of the method. The names of
methods are ASCII, so two methods of a service have one endpoint if their names are the same but for
the case of letters, and else two (`endpoints_of_ofText`).
-/

namespace FeltRelay

namespace Schema.Naming

open FeltRelay.Text

theorem pathOf_eq_iff {x y : String} (hx : ∀ c ∈ x.toList, c.toNat < 128)
    (hy : ∀ c ∈ y.toList, c.toNat < 128) :
    pathOf x = pathOf y ↔ x.toList.map Char.toLower = y.toList.map Char.toLower := by
  rw [pathOf, pathOf, lower, lower, lowerFrom_of_ascii hx, lowerFrom_of_ascii hy]
  exact String.ofList_inj

end Schema.Naming

namespace Server

theorem Entry.urlFor_eq_iff (e : Entry) {p q : String} : e.urlFor p = e.urlFor q ↔ p = q := by
  unfold Entry.urlFor
  constructor
  · intro h
    have hlists := congrArg String.toList h
    simp only [String.toList_append] at hlists
    exact String.toList_inj.1 (List.append_cancel_left hlists)
  · rintro rfl
    rfl

end Server

namespace Dispatch

open FeltRelay.Codec FeltRelay.Network FeltRelay.Schema

variable {d : Dispatcher} {selector : String} {elements : List Json} {log : Log}
  {outcome : Outcome}

/-! ### Where a call posts to -/

theorem posted_of_called {service : String} {method : Schema.Method} {server : Server.Entry}
    {request : Json} {r : Except Problem Json}
    (h : Called d selector elements service method server request r log) {q : Request}
    (hq : q ∈ log.requests) (hpost : q.method = .post) :
    Url.read? (server.urlFor method.path) = some q.url := by
  unfold Log.requests at hq
  rcases sent_of_called h with ⟨hnone, -⟩ | ⟨post, reply, gets, timeout, hlog, hmade, hgets⟩
  · rw [hnone] at hq
    cases hq
  · rw [hlog, List.map_cons] at hq
    rcases List.mem_cons.1 hq with rfl | hq
    · exact (Transport.of_request_eq_ok hmade).2.1
    · obtain ⟨e, he, rfl⟩ := List.mem_map.1 hq
      rw [hgets e he] at hpost
      cases hpost

/-- What a call posts goes to the path of the method that its selector leads to. -/
theorem posted_of_runs (h : (d.ask selector elements).Runs log outcome) {q : Request}
    (hq : q ∈ log.requests) (hpost : q.method = .post) :
    ∃ service method server, d.model.findSelector selector = .ok (service, method) ∧
      d.table.lookup? service = some server ∧
      Url.read? (server.urlFor method.path) = some q.url := by
  have hcalled : ∀ {service method server request r},
      Called d selector elements service method server request r log →
      ∃ service method server, d.model.findSelector selector = .ok (service, method) ∧
        d.table.lookup? service = some server ∧
        Url.read? (server.urlFor method.path) = some q.url := by
    intro service method server request r hcalled
    have hurl := posted_of_called hcalled hq hpost
    obtain ⟨-, understood, served, -⟩ := hcalled
    exact ⟨service, method, server, understood.found, served, hurl⟩
  have hquiet : ¬∀ s ∈ log, Transport.IsQuiet s := by
    intro quiet
    rw [requests_of_quiet quiet] at hq
    cases hq
  cases course_of_runs h with
  | unknown quiet _ => exact absurd quiet hquiet
  | unread quiet _ _ => exact absurd quiet hquiet
  | unserved quiet _ _ => exact absurd quiet hquiet
  | unanswered hcall => exact hcalled hcall
  | broken _ hcall => exact hcalled hcall
  | unfit hcall _ => exact hcalled hcall
  | answered hcall _ => exact hcalled hcall

/-! ### Endpoints of a service -/

/-- Two methods of a service have one path, and one address at any server, exactly if their names
are the same but for the case of letters. A call for a selector posts to the path of its method. -/
theorem endpoints_of_ofText {text : String} (h : Model.ofText text = .ok d.model) {s : Service}
    (hs : s ∈ d.model.services) {x y : Schema.Method} (hx : x ∈ s.methods) (hy : y ∈ s.methods) :
    (x.path = y.path ↔ x.name.toList.map Char.toLower = y.name.toList.map Char.toLower) ∧
      (∀ server : Server.Entry, server.urlFor x.path = server.urlFor y.path ↔
        x.name.toList.map Char.toLower = y.name.toList.map Char.toLower) ∧
      ∀ elements log outcome, (d.ask x.selector elements).Runs log outcome →
        ∀ q ∈ log.requests, q.method = .post → ∃ server,
          d.table.lookup? s.name = some server ∧
          Url.read? (server.urlFor x.path) = some q.url := by
  have hxs := Model.spelled_of_ofText h s hs x hx
  have hys := Model.spelled_of_ofText h s hs y hy
  have hpaths : x.path = y.path ↔
      x.name.toList.map Char.toLower = y.name.toList.map Char.toLower := by
    rw [hxs.path, hys.path]
    exact Naming.pathOf_eq_iff hxs.ascii hys.ascii
  refine ⟨hpaths, fun server => server.urlFor_eq_iff.trans hpaths, ?_⟩
  intro elements log outcome hrun q hq hpost
  obtain ⟨service, method, server, found, served, hurl⟩ := posted_of_runs hrun hq hpost
  rw [Model.findSelector_selector (Model.selectors_of_ofText h).1 hs hx] at found
  cases found
  exact ⟨server, served, hurl⟩

/-- Two methods whose names differ in the case of a letter, which parts the words of the first. -/
def pairedText : String :=
  "message A \x7b u8 a = 1; \x7d
   service S \x7b rpc getData (A) returns (A); rpc Getdata (A) returns (A); \x7d"

/-- A dispatcher for `pairedText`. -/
def paired : Dispatcher where
  model :=
    { package := none, messages := [⟨"A", [⟨"a", .scalar (.unsigned .w8)⟩]⟩], enums := [],
      services := [⟨"S", [⟨"getData", "get_data", "getdata", "A", "A"⟩,
        ⟨"Getdata", "getdata", "getdata", "A", "A"⟩]⟩] }
  table := ⟨[⟨"S", "http://h", false, ⟨1, 0.0, 1.0, 1.0⟩, [], none⟩]⟩
  transport := {}
  modulus := starkPrime

theorem ofText_pairedText : Model.ofText pairedText = .ok paired.model := by
  rw [Model.ofText, Definitions.Declarations.ofText, Definitions.tokenize, pairedText,
    String.toList_ofList]
  exact eq_ok_of_toOption (by decide +kernel)

theorem endpoints_paired : Model.ofText pairedText = .ok paired.model ∧
    ∀ server : Server.Entry, server.urlFor "getdata" = server.urlFor "getdata" ↔
      "getData".toList.map Char.toLower = "Getdata".toList.map Char.toLower :=
  ⟨ofText_pairedText, (endpoints_of_ofText (d := paired) ofText_pairedText
    (List.mem_singleton_self _) (List.mem_cons_self ..)
    (List.mem_cons_of_mem _ (List.mem_singleton_self _))).2.1⟩

/-- Calls for two selectors of one service post to one address. -/
theorem endpoints_paired_shared : Model.ofText pairedText = .ok paired.model ∧
    paired.model.findSelector "get_data" =
      .ok ("S", ⟨"getData", "get_data", "getdata", "A", "A"⟩) ∧
    paired.model.findSelector "getdata" =
      .ok ("S", ⟨"Getdata", "getdata", "getdata", "A", "A"⟩) ∧
    ∃ log₁ log₂ outcome₁ outcome₂ q₁ q₂,
      (paired.ask "get_data" [.int 1]).Runs log₁ outcome₁ ∧ q₁ ∈ log₁.requests ∧
      (paired.ask "getdata" [.int 1]).Runs log₂ outcome₂ ∧ q₂ ∈ log₂.requests ∧
      q₁.method = .post ∧ q₂.method = .post ∧ q₁.url = q₂.url := by
  have h₁ := Process.runs_rehearse (paired.ask "get_data" [.int 1]) {}
  have h₂ := Process.runs_rehearse (paired.ask "getdata" [.int 1]) {}
  have hposted : ∀ selector ∈ ["get_data", "getdata"],
      ((paired.ask selector [.int 1]).logOf {}).requests.map (fun q => (q.method, q.url)) =
        [(.post, ⟨"http".toList, [], ['h'], none, "/getdata".toList, [], []⟩)] := by
    decide +kernel
  obtain ⟨q₁, hq₁, heq₁⟩ := List.map_eq_singleton_iff.1 (hposted "get_data" (by simp))
  obtain ⟨q₂, hq₂, heq₂⟩ := List.map_eq_singleton_iff.1 (hposted "getdata" (by simp))
  obtain ⟨hpost₁, hurl₁⟩ := Prod.mk.inj heq₁
  obtain ⟨hpost₂, hurl₂⟩ := Prod.mk.inj heq₂
  exact ⟨ofText_pairedText, rfl, rfl, _, _, _, _, q₁, q₂, h₁, by simp [hq₁], h₂, by simp [hq₂],
    hpost₁, hpost₂, hurl₁.trans hurl₂.symm⟩

end Dispatch

end FeltRelay
