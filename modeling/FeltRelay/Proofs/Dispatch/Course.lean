import FeltRelay.Dispatch
import FeltRelay.Proofs.Transport

/-!
# How a call goes

Each way that a call can go is a constructor of `Course`, with the steps that it takes and what it
comes to. What is said of all calls is then said of each way.
-/

namespace FeltRelay.Dispatch

open FeltRelay.Codec FeltRelay.Network
open FeltRelay.Transport (IsQuiet isQuiet_newTrace isQuiet_note)

/-- The method that a selector leads to, and the request that elements are read as. -/
structure Understood (d : Dispatcher) (selector : String) (elements : List Json) (service : String)
    (method : Schema.Method) (request : Json) : Prop where
  found : d.model.findSelector selector = .ok (service, method)
  read : Flat.decodeExact d.model d.modulus (.message method.request) elements = .ok request

/-- A call that went as far as the transport, and what the transport gave. -/
inductive Called (d : Dispatcher) (selector : String) (elements : List Json) (service : String)
    (method : Schema.Method) (server : Server.Entry) (request : Json) (r : Except Problem Json) :
    Log → Prop
  | intro {before log after : Log} {context : Journal.Fields}
      (quiet : ∀ s ∈ before ++ after, IsQuiet s)
      (understood : Understood d selector elements service method request)
      (served : d.table.lookup? service = some server)
      (call : (d.transport.call context server method.path request).run.Runs log r) :
      Called d selector elements service method server request r (before ++ (log ++ after))

/-- The elements of an answer. -/
def written (d : Dispatcher) (method : Schema.Method) (payload : Json) :
    Except Failure (List Int) :=
  (Server.unwrap payload).bind fun result =>
    Flat.encode d.model d.modulus (.message method.response) result

/-- A call that ended in a failure while a stage was being entered. -/
def failure (selector : String) (trace : List Stage) (stage : Stage) (cause : Failure) : Outcome :=
  ⟨trace ++ [.failed], .error (.failed ⟨selector, stage, cause⟩)⟩

/-- The ways that a call can go. -/
inductive Course (d : Dispatcher) (selector : String) (elements : List Json) : Log → Outcome → Prop
  | unknown {log : Log} {cause : Failure} (quiet : ∀ s ∈ log, IsQuiet s)
      (h : d.model.findSelector selector = .error cause) :
      Course d selector elements log (failure selector [.received] .resolved cause)
  | unread {log : Log} {service : String} {method : Schema.Method} {cause : Failure}
      (quiet : ∀ s ∈ log, IsQuiet s) (found : d.model.findSelector selector = .ok (service, method))
      (h : Flat.decodeExact d.model d.modulus (.message method.request) elements = .error cause) :
      Course d selector elements log (failure selector [.received, .resolved] .encoded cause)
  | unserved {log : Log} {service : String} {method : Schema.Method} {request : Json}
      {cause : Failure} (quiet : ∀ s ∈ log, IsQuiet s)
      (understood : Understood d selector elements service method request)
      (h : d.table.require service = .error cause) :
      Course d selector elements log
        (failure selector [.received, .resolved, .encoded] .awaitingResponse cause)
  | unanswered {log : Log} {service : String} {method : Schema.Method} {server : Server.Entry}
      {request : Json} {cause : Failure}
      (h : Called d selector elements service method server request (.error (.failure cause)) log) :
      Course d selector elements log (failure selector
        [.received, .resolved, .encoded, .awaitingResponse] .awaitingResponse cause)
  | broken {log : Log} {service : String} {method : Schema.Method} {server : Server.Entry}
      {request : Json} {p : Problem} (hp : ¬p.IsFailure)
      (h : Called d selector elements service method server request (.error p) log) :
      Course d selector elements log
        ⟨[.received, .resolved, .encoded, .awaitingResponse], .error (.broken p)⟩
  | unfit {log : Log} {service : String} {method : Schema.Method} {server : Server.Entry}
      {request payload : Json} {cause : Failure}
      (h : Called d selector elements service method server request (.ok payload) log)
      (hwritten : written d method payload = .error cause) :
      Course d selector elements log (failure selector
        [.received, .resolved, .encoded, .awaitingResponse] .decoded cause)
  | answered {log : Log} {service : String} {method : Schema.Method} {server : Server.Entry}
      {request payload : Json} {out : List Int}
      (h : Called d selector elements service method server request (.ok payload) log)
      (hwritten : written d method payload = .ok out) :
      Course d selector elements log ⟨Stage.path, .ok out⟩

variable {d : Dispatcher} {selector : String} {elements : List Json} {log : Log}
  {outcome : Outcome} {context : Journal.Fields} {trace : List Stage} {stage : Stage}

/-! ### Entering and failing -/

theorem of_runs_fail {cause : Failure}
    (h : (fail context selector trace stage cause).Runs log outcome) :
    (∀ s ∈ log, IsQuiet s) ∧ outcome = failure selector trace stage cause := by
  obtain ⟨_, rest, rfl, hrest⟩ := Process.runs_once_bind_iff.1 h
  obtain ⟨rfl, rfl⟩ := Process.runs_done_iff.1 hrest
  exact ⟨by simpa using isQuiet_note (by simp) _, rfl⟩

theorem of_runs_enter_bind {α : Type} {fields : Journal.Fields} {next : Unit → Process α} {a : α}
    (h : (enter context stage fields >>= next).Runs log a) :
    ∃ s rest, log = s :: rest ∧ IsQuiet s ∧ (next ()).Runs rest a := by
  obtain ⟨_, rest, rfl, hrest⟩ := Process.runs_once_bind_iff.1 h
  exact ⟨_, rest, rfl, isQuiet_note (by simp) _, hrest⟩

/-! ### The parts of a call -/

variable {service : String} {method : Schema.Method} {request payload : Json}

theorem finish_eq : d.finish context selector trace method payload =
    match written d method payload with
    | .error cause => fail context selector trace .decoded cause
    | .ok elements => do
      enter context .decoded []
      enter context .completed [("elements", elements.length)]
      return ⟨trace ++ [.decoded, .completed], .ok elements⟩ := rfl

theorem of_runs_finish (h : (d.finish context selector trace method payload).Runs log outcome) :
    (∀ s ∈ log, IsQuiet s) ∧
      ((∃ cause, written d method payload = .error cause ∧
        outcome = failure selector trace .decoded cause) ∨
      ∃ out, written d method payload = .ok out ∧
        outcome = ⟨trace ++ [.decoded, .completed], .ok out⟩) := by
  rw [finish_eq] at h
  cases hwritten : written d method payload with
  | error cause =>
    simp only [hwritten] at h
    obtain ⟨quiet, houtcome⟩ := of_runs_fail h
    exact ⟨quiet, .inl ⟨cause, rfl, houtcome⟩⟩
  | ok out =>
    simp only [hwritten] at h
    obtain ⟨s₁, l₁, rfl, hs₁, h₁⟩ := of_runs_enter_bind h
    obtain ⟨s₂, l₂, rfl, hs₂, h₂⟩ := of_runs_enter_bind h₁
    obtain ⟨rfl, rfl⟩ := Process.runs_done_iff.1 h₂
    refine ⟨?_, .inr ⟨out, rfl, rfl⟩⟩
    simpa using ⟨hs₁, hs₂⟩

theorem course_of_runs_send {before : Log} (hbefore : ∀ s ∈ before, IsQuiet s)
    (hrequest : Understood d selector elements service method request)
    (h : (d.send context selector [.received, .resolved, .encoded] service method request).Runs log
      outcome) : Course d selector elements (before ++ log) outcome := by
  unfold Dispatcher.send at h
  cases hserver : d.table.require service with
  | error cause =>
    simp only [hserver] at h
    obtain ⟨quiet, rfl⟩ := of_runs_fail h
    exact .unserved (List.forall_mem_append.2 ⟨hbefore, quiet⟩) hrequest hserver
  | ok server =>
    have hserved : d.table.lookup? service = some server := by
      unfold Server.Table.require at hserver
      split at hserver
      · rename_i e he
        cases hserver
        exact he
      · cases hserver
    simp only [hserver] at h
    obtain ⟨s, l, rfl, hs, hcall⟩ := of_runs_enter_bind h
    obtain ⟨l₁, l₂, r, rfl, hrun, hgo⟩ := Process.runs_bind_iff.1 hcall
    have hfirst : ∀ x ∈ before ++ [s], IsQuiet x :=
      List.forall_mem_append.2 ⟨hbefore, by simpa using hs⟩
    have hcalled : ∀ after : Log, (∀ s ∈ after, IsQuiet s) →
        Called d selector elements service method server request r
          (before ++ s :: (l₁ ++ after)) := by
      intro after hafter
      have hquiet := List.forall_mem_append.2 ⟨hfirst, hafter⟩
      have hintro := Called.intro hquiet hrequest hserved hrun
      rwa [List.append_assoc] at hintro
    cases r with
    | error p =>
      cases p with
      | failure cause =>
        obtain ⟨quiet, rfl⟩ := of_runs_fail hgo
        exact .unanswered (hcalled l₂ quiet)
      | _ =>
        obtain ⟨rfl, rfl⟩ := Process.runs_done_iff.1 hgo
        refine .broken ?_ (hcalled [] fun s hs => absurd hs List.not_mem_nil)
        rintro ⟨f, hf⟩
        cases hf
    | ok payload =>
      obtain ⟨quiet, ⟨cause, hwritten, rfl⟩ | ⟨out, hwritten, rfl⟩⟩ := of_runs_finish hgo
      · exact .unfit (hcalled l₂ quiet) hwritten
      · exact .answered (hcalled l₂ quiet) hwritten

/-- Every call goes one of the ways. -/
theorem course_of_runs (h : (d.ask selector elements).Runs log outcome) :
    Course d selector elements log outcome := by
  unfold Dispatcher.ask at h
  obtain ⟨name, l₁, rfl, h₁⟩ := Process.runs_once_bind_iff.1 h
  obtain ⟨s₂, l₂, rfl, hs₂, h₂⟩ := of_runs_enter_bind h₁
  have hstart : ∀ s ∈ [⟨.newTrace, name⟩, s₂], IsQuiet s := by
    simpa using ⟨isQuiet_newTrace name, hs₂⟩
  cases hfound : d.model.findSelector selector with
  | error cause =>
    simp only [hfound] at h₂
    obtain ⟨quiet, rfl⟩ := of_runs_fail h₂
    exact .unknown (List.forall_mem_append.2 ⟨hstart, quiet⟩) hfound
  | ok found =>
    obtain ⟨service, method⟩ := found
    simp only [hfound] at h₂
    obtain ⟨s₃, l₃, rfl, hs₃, h₃⟩ := of_runs_enter_bind h₂
    have hfirst : ∀ s ∈ [⟨.newTrace, name⟩, s₂, s₃], IsQuiet s :=
      List.forall_mem_append.2 ⟨hstart, by simpa using hs₃⟩
    cases hread : Flat.decodeExact d.model d.modulus (.message method.request) elements with
    | error cause =>
      simp only [hread] at h₃
      obtain ⟨quiet, rfl⟩ := of_runs_fail h₃
      exact .unread (List.forall_mem_append.2 ⟨hfirst, quiet⟩) hfound hread
    | ok request =>
      simp only [hread] at h₃
      obtain ⟨s₄, l₄, rfl, hs₄, h₄⟩ := of_runs_enter_bind h₃
      have hbefore : ∀ s ∈ [⟨.newTrace, name⟩, s₂, s₃, s₄], IsQuiet s :=
        List.forall_mem_append.2 ⟨hfirst, by simpa using hs₄⟩
      exact course_of_runs_send hbefore ⟨hfound, hread⟩ h₄

end FeltRelay.Dispatch
