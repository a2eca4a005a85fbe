import FeltRelay.Proofs.Codec.Flat.Decoded
import FeltRelay.Proofs.Dispatch.Course

/-!
# What a call comes to

A call that brings elements has sent one POST request with the decoded elements, and its elements
are the encoded result of the last reply. A call that ends in a failure tells how far it came. No
other end is possible, unless the call sets out for a request that cannot be made.
-/

namespace FeltRelay.Dispatch

open FeltRelay.Codec FeltRelay.Network
open FeltRelay.Transport (requestNote exchanges_between exchanges_of_quiet faulted_between
  not_faulted_of_quiet)

variable {d : Dispatcher} {selector : String} {elements : List Json} {log : Log}
  {outcome : Outcome} {service : String} {method : Schema.Method} {server : Server.Entry}
  {request : Json} {r : Except Problem Json}

/-! ### The parts of an answer -/

theorem of_findSelector (h : d.model.findSelector selector = .ok (service, method)) :
    (service, method) ∈ d.model.methods ∧ method.selector = selector := by
  unfold Schema.Model.findSelector at h
  split at h
  · rename_i found hfound
    cases h
    exact ⟨List.mem_of_find?_eq_some hfound, by simpa using List.find?_some hfound⟩
  · cases h

theorem of_unwrap {payload result : Json} (h : Server.unwrap payload = .ok result) :
    ∃ members, payload = .obj members ∧ members.lookup "error" = none ∧
      members.lookup "result" = some result := by
  unfold Server.unwrap Server.unwrap? at h
  cases herror : payload.member? "error" with
  | some v =>
    rw [herror] at h
    cases h
  | none =>
    rw [herror] at h
    dsimp only at h
    cases hresult : payload.member? "result" with
    | none =>
      rw [hresult] at h
      cases h
    | some v =>
      rw [hresult] at h
      cases h
      cases payload with
      | obj members => exact ⟨members, rfl, herror, hresult⟩
      | _ => cases hresult

/-- What a call sends that comes as far as the transport. -/
theorem sent_of_called (h : Called d selector elements service method server request r log) :
    (log.exchanges = [] ∧ ∃ p, r = .error p) ∨
    ∃ post reply gets timeout, log.exchanges = (post, reply) :: gets ∧
      d.transport.request .post (server.urlFor method.path) timeout server.headers request =
        .ok post ∧ ∀ x ∈ gets, x.1.method = .get := by
  obtain ⟨quiet, -, -, call⟩ := h
  rw [exchanges_between quiet]
  exact Transport.sent_of_call call

/-- Everything that stands behind the elements of a call. -/
structure Answer (d : Dispatcher) (selector : String) (elements : List Json) (log : Log)
    (out : List Int) where
  service : String
  method : Schema.Method
  server : Server.Entry
  request : Json
  post : Request
  members : List (String × Json)
  result : Json
  found : d.model.findSelector selector = .ok (service, method)
  declared : (service, method) ∈ d.model.methods ∧ method.selector = selector
  served : d.table.lookup? service = some server
  read : Flat.decodeExact d.model d.modulus (.message method.request) elements = .ok request
  /-- One POST request was sent. -/
  posts : log.requests.filter (·.method = .post) = [post]
  address : Url.read? (server.urlFor method.path) = some post.url
  body : post.body = some request
  /-- The payload came with the last reply. -/
  brought : ∃ x, log.exchanges.getLast? = some x ∧ x.2.Brings (.obj members)
  noError : members.lookup "error" = none
  hasResult : members.lookup "result" = some result
  wrote : Flat.encode d.model d.modulus (.message method.response) result = .ok out

theorem posts_of_sent {post : Request} {reply : Reply} {gets : List (Request × Reply)}
    (hlog : log.exchanges = (post, reply) :: gets) (hpost : post.method = .post)
    (hgets : ∀ x ∈ gets, x.1.method = .get) :
    log.requests.filter (·.method = .post) = [post] := by
  have hnone : (gets.map Prod.fst).filter (·.method = .post) = [] := by
    refine List.filter_eq_nil_iff.2 fun q hq => ?_
    obtain ⟨x, hx, rfl⟩ := List.mem_map.1 hq
    simp [hgets x hx]
  unfold Log.requests
  rw [hlog, List.map_cons, List.filter_cons_of_pos (by simpa using hpost), hnone]

theorem answer_of_called {payload : Json} {out : List Int}
    (h : Called d selector elements service method server request (.ok payload) log)
    (hwritten : written d method payload = .ok out) : Nonempty (Answer d selector elements log out) := by
  obtain ⟨result, hresult, hout⟩ := bind_eq_ok_iff.1 hwritten
  obtain ⟨members, rfl, hnone, hsome⟩ := of_unwrap hresult
  rcases sent_of_called h with ⟨-, p, hp⟩ | ⟨post, reply, gets, timeout, hlog, hmade, hgets⟩
  · cases hp
  obtain ⟨hpost, haddress, hbody⟩ := Transport.of_request_eq_ok hmade
  have hposts := posts_of_sent hlog hpost hgets
  obtain ⟨quiet, ⟨found, read⟩, served, call⟩ := h
  obtain ⟨⟨ms, rfl⟩, -⟩ := Flat.of_decodeExact_message read
  have hbrought := Transport.brings_of_call call
  rw [← exchanges_between quiet] at hbrought
  exact ⟨⟨service, method, server, .obj ms, post, members, result, found, of_findSelector found,
    served, read, hposts, haddress, hbody, hbrought, hnone, hsome, hout⟩⟩

/-! ### Failures -/

/-- A call went as far as the transport, which gave a payload or was stopped. -/
def TransportGave (d : Dispatcher) (selector : String) (elements : List Json) (log : Log)
    (r : Except Problem Json) : Prop :=
  ∃ service method server request, Called d selector elements service method server request r log

/-- A call has failed after some stages. The failure names the stage behind the last one that was
entered; but where the transport failed, it names the one in which the answer was awaited. -/
structure FailedAfter (d : Dispatcher) (selector : String) (elements : List Json) (log : Log)
    (trace : List Stage) (f : CallFailure) (entered : Nat) : Prop where
  bounds : 0 < entered ∧ entered < Stage.path.length
  trace_eq : trace = Stage.path.take entered ++ [.failed]
  stage : (Stage.path[entered]? = some f.stage ∧
      (.awaitingResponse ∈ trace →
        ∃ payload, TransportGave d selector elements log (.ok payload))) ∨
    (f.stage = .awaitingResponse ∧ .awaitingResponse ∈ trace ∧
      TransportGave d selector elements log (.error (.failure f.cause)))
  kind : f.toFailure.context.lookup "kind" = some (.str f.cause.code)
  unsent : .awaitingResponse ∉ trace → log.requests = []

theorem requests_of_quiet (h : ∀ s ∈ log, Transport.IsQuiet s) : log.requests = [] := by
  unfold Log.requests
  rw [exchanges_of_quiet h]
  rfl

theorem not_awaiting : ∀ n < 4, .awaitingResponse ∉ Stage.path.take n ++ [.failed] := by decide

/-- Before an answer is awaited, nothing is sent. -/
theorem failedAfter_of_quiet {n : Nat} (h0 : 0 < n) (hn : n < 4) {stage : Stage}
    (hstage : Stage.path[n]? = some stage) (quiet : ∀ s ∈ log, Transport.IsQuiet s)
    (cause : Failure) :
    FailedAfter d selector elements log (Stage.path.take n ++ [.failed])
      ⟨selector, stage, cause⟩ n where
  bounds := ⟨h0, Nat.lt_trans hn (by decide)⟩
  trace_eq := rfl
  stage := .inl ⟨hstage, fun h => absurd h (not_awaiting n hn)⟩
  kind := rfl
  unsent := fun _ => requests_of_quiet quiet

theorem failedAfter_of_course {f : CallFailure} (h : Course d selector elements log outcome)
    (hf : outcome.result = .error (.failed f)) :
    ∃ n, FailedAfter d selector elements log outcome.trace f n := by
  have hawaiting : Stage.awaitingResponse ∈ Stage.path.take 4 ++ [.failed] := by decide
  cases h with
  | unknown quiet h =>
    cases hf
    exact ⟨1, failedAfter_of_quiet (n := 1) (by decide) (by decide) rfl quiet _⟩
  | unread quiet found h =>
    cases hf
    exact ⟨2, failedAfter_of_quiet (n := 2) (by decide) (by decide) rfl quiet _⟩
  | unserved quiet understood h =>
    cases hf
    exact ⟨3, failedAfter_of_quiet (n := 3) (by decide) (by decide) rfl quiet _⟩
  | unanswered h =>
    cases hf
    refine ⟨4, by decide, rfl, .inr ⟨rfl, hawaiting, _, _, _, _, h⟩, rfl, ?_⟩
    exact fun hnot => absurd hawaiting hnot
  | broken hp h => cases hf
  | unfit h hwritten =>
    cases hf
    refine ⟨4, by decide, rfl, .inl ⟨rfl, fun _ => ⟨_, _, _, _, _, h⟩⟩, rfl, ?_⟩
    exact fun hnot => absurd hawaiting hnot
  | answered h hwritten => cases hf

/-- What a call says of itself is so. If it brings elements, one request was sent for them, and they
are what the server computed; if it fails, its trace and its failure tell how far it came. -/
theorem ask_outcome (h : (d.ask selector elements).Runs log outcome) :
    (∀ out, outcome.result = .ok out →
      Nonempty (Answer d selector elements log out) ∧ outcome.trace = Stage.path) ∧
    ∀ f, outcome.result = .error (.failed f) →
      ∃ n, FailedAfter d selector elements log outcome.trace f n := by
  have hcourse := course_of_runs h
  refine ⟨fun out hout => ?_, fun f hf => failedAfter_of_course hcourse hf⟩
  cases hcourse with
  | answered hcalled hwritten =>
    cases hout
    exact ⟨answer_of_called hcalled hwritten, rfl⟩
  | _ => cases hout

/-! ### One failure value -/

/-- Every request to the server of a call that was set out for could be made: its address can be
used, and its headers can be sent. -/
def Unfaulted (d : Dispatcher) (selector : String) (log : Log) : Prop :=
  ∀ service method server, d.model.findSelector selector = .ok (service, method) →
    d.table.lookup? service = some server → ¬d.transport.Faulted server.headers log

theorem unfaulted_of_quiet (quiet : ∀ s ∈ log, Transport.IsQuiet s) : Unfaulted d selector log :=
  fun _ _ _ _ _ => not_faulted_of_quiet quiet

theorem broken_iff_of_called (h : Called d selector elements service method server request r log)
    (hlog : log.Sound) : Transport.Broken r ↔ ¬Unfaulted d selector log := by
  obtain ⟨quiet, ⟨found, read⟩, served, call⟩ := h
  rename_i before part after context
  have hfinite := (Flat.of_decodeExact_message read).2
  have hsound := (Log.sound_append.1 (Log.sound_append.1 hlog).2).1
  rw [Transport.broken_iff_of_call call hfinite hsound, ← faulted_between quiet, iff_not_comm]
  constructor
  · intro hall
    exact hall service method server found served
  · intro hnot service' method' server' found' served'
    cases found.symm.trans found'
    cases served.symm.trans served'
    exact hnot

theorem unfaulted_of_called (h : Called d selector elements service method server request r log)
    (hlog : log.Sound) (hr : ¬Transport.Broken r) : Unfaulted d selector log := by
  rwa [broken_iff_of_called h hlog, not_not] at hr

/-- A call that ends in elements or in one failure. -/
def Outcome.IsSettled (outcome : Outcome) : Prop :=
  (∃ out, outcome.result = .ok out) ∨ ∃ f, outcome.result = .error (.failed f)

theorem isSettled_iff_of_course (h : Course d selector elements log outcome) (hlog : log.Sound) :
    outcome.IsSettled ↔ Unfaulted d selector log := by
  cases h with
  | unknown quiet _ => exact iff_of_true (.inr ⟨_, rfl⟩) (unfaulted_of_quiet quiet)
  | unread quiet _ _ => exact iff_of_true (.inr ⟨_, rfl⟩) (unfaulted_of_quiet quiet)
  | unserved quiet _ _ => exact iff_of_true (.inr ⟨_, rfl⟩) (unfaulted_of_quiet quiet)
  | unanswered hcalled =>
    have hclear := unfaulted_of_called hcalled hlog (Transport.not_broken_failure _)
    exact iff_of_true (.inr ⟨_, rfl⟩) hclear
  | broken hp hcalled =>
    refine iff_of_false ?_ ((broken_iff_of_called hcalled hlog).1 ⟨_, rfl, hp⟩)
    rintro (⟨out, hout⟩ | ⟨f, hf⟩)
    · cases hout
    · cases hf
  | unfit hcalled _ =>
    have hclear := unfaulted_of_called hcalled hlog (Transport.not_broken_ok _)
    exact iff_of_true (.inr ⟨_, rfl⟩) hclear
  | answered hcalled _ =>
    have hclear := unfaulted_of_called hcalled hlog (Transport.not_broken_ok _)
    exact iff_of_true (.inl ⟨_, rfl⟩) hclear

theorem mem_statusUrl {job : String} {c : Char} (h : c ∈ job.toList) :
    c ∈ (server.statusUrl job).toList := by
  unfold Server.Entry.statusUrl
  rw [String.toList_append]
  exact List.mem_append_right _ h

/-- A dispatcher with one method, whose server is reached at some address. -/
def squareRoots (address : String) : Dispatcher where
  model :=
    { package := none, messages := [⟨"Number", [⟨"n", .scalar (.unsigned .w64)⟩]⟩], enums := [],
      services := [⟨"Roots", [⟨"Sqrt", "sqrt", "sqrt", "Number", "Number"⟩]⟩] }
  table := ⟨[⟨"Roots", address, false, ⟨1, 0.0, 1.0, 1.0⟩, [], none⟩]⟩
  transport := {}
  modulus := starkPrime

/-- A server that knows one root. -/
def three : Rehearsal where
  replies := [{ reply := .answered 200 (Text.Utf8.encode "\x7b\"result\": \x7b\"n\": 3\x7d\x7d") }]

theorem ask_outcome_three :
    ∃ log outcome, ((squareRoots "http://h").ask "sqrt" [.int 9]).Runs log outcome ∧
      Nonempty (Answer (squareRoots "http://h") "sqrt" [.int 9] log [3]) ∧
      outcome.trace = Stage.path := by
  have hrun := Process.runs_rehearse ((squareRoots "http://h").ask "sqrt" [.int 9]) three
  have hresult : (((squareRoots "http://h").ask "sqrt" [.int 9]).rehearse three).1.result =
      .ok [3] := eq_ok_of_toOption (by decide +kernel)
  exact ⟨_, _, hrun, (ask_outcome hrun).1 [3] hresult⟩

theorem rehearse_unusable : (((squareRoots "http://h\x01").ask "sqrt" [.int 9]).rehearse {}).1 =
    ⟨[.received, .resolved, .encoded, .awaitingResponse],
      .error (.broken (.unusableUrl "http://h\x01/sqrt"))⟩ := rfl

end FeltRelay.Dispatch
