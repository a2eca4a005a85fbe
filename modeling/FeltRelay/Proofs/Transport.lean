import FeltRelay.Proofs.Process
import FeltRelay.Proofs.Result
import FeltRelay.Transport

/-!
# What a transport does

A call sends one POST request, and after it nothing but GET requests; the value that it gives came
with its last reply. What stops a call is a failure, unless an address that it set out for cannot be
used.
-/

namespace FeltRelay

open FeltRelay.Network FeltRelay.Text

/-- A problem that the library has a description for. -/
def Problem.IsFailure (p : Problem) : Prop := ∃ f, p = .failure f

/-- A reply that brings a value with success. -/
def Network.Reply.Brings (reply : Reply) (v : Json) : Prop :=
  ∃ status body, reply = .answered status body ∧ isSuccess status = true ∧
    bodyValue? body = some v

/-- The client keeps to its documentation: it answers no request without a host, and it finds fault
with no address that can be read. -/
def Log.Sound (log : Log) : Prop :=
  ∀ x ∈ log.exchanges, x.2 ≠ .unusableUrl ∧
    ∀ status body, x.2 = .answered status body → x.1.url.isPlaced = true

theorem Log.sound_append {l₁ l₂ : Log} : (l₁ ++ l₂).Sound ↔ l₁.Sound ∧ l₂.Sound := by
  unfold Log.Sound
  rw [Log.exchanges_append]
  exact List.forall_mem_append

namespace Transport

variable {t : Transport} {context : Journal.Fields} {method : Method} {url : String}
  {timeout : Float} {headers : Headers} {body : Json} {log : Log} {r : Except Problem Json}

/-! ### Requests -/

/-- A request with some headers can go to an address: the address can be read, the headers and the
host can be written, or the host is given in the headers. -/
def Reaches (t : Transport) (headers : Headers) (url : String) : Prop :=
  (headers.all fun (name, v) => isSendable name && isSendable v) = true ∧
    ∃ address, Url.read? url = some address ∧
      (address.host.all (·.toNat < 128) || Entries.has "host" (overlay t.headers headers)) = true

/-- The type of a body is told under a name of its own. -/
theorem has_host_requestHeaders (base top : Headers) (hasBody : Bool) :
    Entries.has "host" (requestHeaders base top hasBody) = Entries.has "host" (overlay base top) := by
  unfold requestHeaders
  dsimp only
  split
  · unfold Entries.putNew
    split
    · rfl
    · unfold Entries.has
      rw [Entries.lookup_put_of_ne (by decide)]
  · rfl

theorem of_request_eq_ok {request : Request}
    (h : t.request method url timeout headers body = .ok request) :
    request.method = method ∧ Url.read? url = some request.url ∧ request.body = bodyOf body := by
  unfold Transport.request at h
  split at h
  · cases h
  · rename_i address hread
    dsimp only at h
    split_ifs at h
    cases h
    exact ⟨rfl, hread, rfl⟩

theorem exists_request_iff (hbody : body.isFinite = true) :
    (∃ request, t.request method url timeout headers body = .ok request) ↔
      t.Reaches headers url := by
  unfold Transport.request Reaches
  cases hread : Url.read? url with
  | none => simp
  | some address =>
    dsimp only
    rw [has_host_requestHeaders, hbody]
    simp only [Option.some.injEq, exists_eq_left']
    generalize (headers.all fun (name, v) => isSendable name && isSendable v) = sendable
    generalize address.host.all (·.toNat < 128) = plain
    generalize Entries.has "host" (overlay t.headers headers) = named
    cases sendable <;> cases plain <;> cases named <;> simp

theorem not_reaches_of_request {p : Problem} (hbody : body.isFinite = true)
    (h : t.request method url timeout headers body = .error p) : ¬t.Reaches headers url := by
  intro hreach
  obtain ⟨request, hok⟩ := (exists_request_iff hbody).2 hreach
  rw [h] at hok
  cases hok

/-- No address holds a control character. -/
theorem not_reaches_of_control {c : Char} (hc : c ∈ url.toList) (hcontrol : Url.isControl c = true) :
    ¬t.Reaches headers url := by
  have hany : url.toList.any Url.isControl = true := List.any_eq_true.2 ⟨c, hc, hcontrol⟩
  rintro ⟨-, address, hread, -⟩
  unfold Url.read? at hread
  dsimp only at hread
  rw [hany, Bool.or_true, if_pos rfl] at hread
  cases hread

theorem not_isFailure_of_request {p : Problem}
    (h : t.request method url timeout headers body = .error p) : ¬p.IsFailure := by
  unfold Transport.request at h
  rintro ⟨f, rfl⟩
  split at h
  · cases h
  · dsimp only at h
    split_ifs at h <;> cases h

/-! ### One exchange -/

theorem brings_of_payload {placed : Bool} {reply : Reply} {v : Json}
    (h : payload method url timeout placed reply = .ok v) : reply.Brings v := by
  cases reply with
  | answered status bytes =>
    unfold payload at h
    dsimp only at h
    split at h
    · cases h
    · split at h
      · split at h <;> cases h
      · rename_i w hvalue
        split at h
        · rename_i hsuccess
          cases h
          exact ⟨status, bytes, rfl, hsuccess, hvalue⟩
        · cases h
  | _ => cases h

theorem isFailure_of_payload {placed : Bool} {reply : Reply} {p : Problem}
    (h : payload method url timeout placed reply = .error p) (hreply : reply ≠ .unusableUrl)
    (hplaced : ∀ status body, reply = .answered status body → placed = true) : p.IsFailure := by
  cases reply with
  | answered status bytes =>
    unfold payload at h
    rw [hplaced status bytes rfl] at h
    cases hvalue : bodyValue? bytes <;> cases hsuccess : isSuccess status
    all_goals
      simp only [hvalue, hsuccess, Bool.not_true, Bool.false_eq_true, if_true, if_false] at h
      cases h
    all_goals exact ⟨_, rfl⟩
  | unusableUrl => exact absurd rfl hreply
  | _ =>
    cases h
    exact ⟨_, rfl⟩

/-- The note that the journal keeps of a request before it is made. -/
def requestNote (context : Journal.Fields) (method : Method) (url : String) : Process.Step :=
  ⟨.note (entry context "oracle request" [("method", method.name), ("url", url)]), ()⟩

theorem eq_of_requestNote {context' : Journal.Fields} {method' : Method} {url' : String}
    (h : requestNote context method url = requestNote context' method' url') : url = url' := by
  simp only [requestNote, entry, Process.Step.mk.injEq, Question.note.injEq,
    Journal.Record.mk.injEq, List.cons.injEq, Prod.mk.injEq, Journal.FieldValue.json.injEq,
    Json.str.injEq] at h
  obtain ⟨⟨-, -, -, -, ⟨-, ⟨-, hurl⟩, -⟩, -⟩, -⟩ := h
  exact hurl

/-- The steps of an exchange: the note, and the request with its reply unless it could not be
made. -/
theorem of_runs_exchange
    (h : (t.exchange context method url timeout headers body).run.Runs log r) :
    (∃ p, t.request method url timeout headers body = .error p ∧ r = .error p ∧
      log = [requestNote context method url]) ∨
    ∃ request reply, t.request method url timeout headers body = .ok request ∧
      r = payload method url timeout request.url.isPlaced reply ∧
      log = [requestNote context method url, ⟨.send request, reply⟩] := by
  unfold exchange at h
  obtain ⟨_, rest, rfl, hrest⟩ := Activity.runs_once_bind_iff.1 h
  rcases Activity.runs_bind_iff.1 hrest with ⟨l₁, l₂, request, rfl, hmade, hsend⟩ | ⟨p, rfl, hstop⟩
  · obtain ⟨rfl, hrequest⟩ := Activity.runs_ofAttempt_iff.1 hmade
    obtain ⟨reply, last, rfl, hlast⟩ := Activity.runs_once_bind_iff.1 hsend
    obtain ⟨rfl, rfl⟩ := Activity.runs_ofAttempt_iff.1 hlast
    exact .inr ⟨request, reply, hrequest.symm, rfl, rfl⟩
  · obtain ⟨rfl, hproblem⟩ := Activity.runs_ofAttempt_iff.1 hstop
    exact .inl ⟨p, hproblem.symm, rfl, rfl⟩

/-- A value comes from one exchange that was answered with it. -/
theorem of_runs_exchange_ok {v : Json}
    (h : (t.exchange context method url timeout headers body).run.Runs log (.ok v)) :
    ∃ request reply, t.request method url timeout headers body = .ok request ∧
      log.exchanges = [(request, reply)] ∧ reply.Brings v := by
  rcases of_runs_exchange h with ⟨p, -, hp, -⟩ | ⟨request, reply, hmade, hv, rfl⟩
  · cases hp
  · exact ⟨request, reply, hmade, rfl, brings_of_payload hv.symm⟩

theorem method_of_runs_exchange
    (h : (t.exchange context method url timeout headers body).run.Runs log r) :
    ∀ x ∈ log.exchanges, x.1.method = method := by
  intro x hx
  rcases of_runs_exchange h with ⟨p, -, -, rfl⟩ | ⟨request, reply, hmade, -, rfl⟩
  · cases hx
  · rw [List.mem_singleton.1 hx]
    exact (of_request_eq_ok hmade).1

/-! ### Steps beside the exchanges -/

/-- A step that neither exchanges nor notes a request. -/
def IsQuiet (s : Process.Step) : Prop :=
  Log.exchange? s = none ∧ ∀ context method url, s ≠ requestNote context method url

theorem isQuiet_note {record : Journal.Record} (h : record.message ≠ "oracle request")
    (answer : Unit) : IsQuiet ⟨.note record, answer⟩ := by
  refine ⟨rfl, fun context method url heq => h ?_⟩
  cases heq
  rfl

theorem isQuiet_clock (now : Float) : IsQuiet ⟨.clock, now⟩ :=
  ⟨rfl, fun _ _ _ heq => by cases heq⟩

theorem isQuiet_sleep (seconds : Float) (answer : Unit) : IsQuiet ⟨.sleep seconds, answer⟩ :=
  ⟨rfl, fun _ _ _ heq => by cases heq⟩

theorem isQuiet_newTrace (name : String) : IsQuiet ⟨.newTrace, name⟩ :=
  ⟨rfl, fun _ _ _ heq => by cases heq⟩

theorem exchanges_of_quiet (h : ∀ s ∈ log, IsQuiet s) : log.exchanges = [] := by
  induction log with
  | nil => rfl
  | cons s log ih =>
    have hs := (h s (List.mem_cons_self ..)).1
    rw [Log.exchanges_cons, hs, ih fun s' hs' => h s' (List.mem_cons_of_mem _ hs')]
    rfl

/-- The journal notes a request that cannot go to its address. -/
def Faulted (t : Transport) (headers : Headers) (log : Log) : Prop :=
  ∃ context method url, requestNote context method url ∈ log ∧ ¬t.Reaches headers url

theorem faulted_append {l₁ l₂ : Log} :
    t.Faulted headers (l₁ ++ l₂) ↔ t.Faulted headers l₁ ∨ t.Faulted headers l₂ := by
  unfold Faulted
  simp only [List.mem_append, or_and_right, exists_or]

theorem faulted_cons {s : Process.Step}
    (h : ∀ context method url, s ≠ requestNote context method url) :
    t.Faulted headers (s :: log) ↔ t.Faulted headers log := by
  unfold Faulted
  constructor
  · rintro ⟨context, method, url, hmem, hno⟩
    exact ⟨context, method, url, (List.mem_cons.1 hmem).resolve_left (h _ _ _).symm, hno⟩
  · rintro ⟨context, method, url, hmem, hno⟩
    exact ⟨context, method, url, List.mem_cons_of_mem _ hmem, hno⟩

theorem faulted_requestNote_cons :
    t.Faulted headers (requestNote context method url :: log) ↔
      ¬t.Reaches headers url ∨ t.Faulted headers log := by
  constructor
  · rintro ⟨context', method', url', hmem, hno⟩
    rcases List.mem_cons.1 hmem with heq | hmem
    · exact .inl (eq_of_requestNote heq ▸ hno)
    · exact .inr ⟨context', method', url', hmem, hno⟩
  · rintro (hno | ⟨context', method', url', hmem, hno⟩)
    · exact ⟨context, method, url, List.mem_cons_self .., hno⟩
    · exact ⟨context', method', url', List.mem_cons_of_mem _ hmem, hno⟩

theorem faulted_send_cons {request : Request} {reply : Reply} :
    t.Faulted headers (⟨.send request, reply⟩ :: log) ↔ t.Faulted headers log :=
  faulted_cons fun _ _ _ heq => by cases heq

theorem not_faulted_of_quiet (h : ∀ s ∈ log, IsQuiet s) : ¬t.Faulted headers log := by
  rintro ⟨context, method, url, hmem, -⟩
  exact (h _ hmem).2 context method url rfl

theorem not_faulted_nil : ¬t.Faulted headers [] :=
  not_faulted_of_quiet fun _ hs => absurd hs List.not_mem_nil

/-- What stops an activity is no failure. -/
def Broken (r : Except Problem Json) : Prop := ∃ p, r = .error p ∧ ¬p.IsFailure

theorem broken_iff_of_exchange
    (h : (t.exchange context method url timeout headers body).run.Runs log r)
    (hbody : body.isFinite = true) (hlog : log.Sound) : Broken r ↔ t.Faulted headers log := by
  rcases of_runs_exchange h with ⟨p, hmade, rfl, rfl⟩ | ⟨request, reply, hmade, rfl, rfl⟩
  · refine iff_of_true ⟨p, rfl, not_isFailure_of_request hmade⟩ ?_
    exact faulted_requestNote_cons.2 (.inl (not_reaches_of_request hbody hmade))
  · have hreach : t.Reaches headers url := (exists_request_iff hbody).1 ⟨request, hmade⟩
    obtain ⟨hreply, hplaced⟩ := hlog (request, reply) (by simp [requestNote, Log.exchange?])
    refine iff_of_false ?_ ?_
    · rintro ⟨p, hp, hno⟩
      exact hno (isFailure_of_payload hp hreply hplaced)
    · rw [faulted_requestNote_cons, faulted_send_cons]
      exact not_or.2 ⟨not_not.2 hreach, not_faulted_nil⟩

/-! ### Jobs -/

variable {e : Server.Entry} {job : String} {started : Float}

/-- The request for the state of a job. -/
def inquiry (t : Transport) (e : Server.Entry) (job : String) : Attempt Request :=
  t.request .get (e.statusUrl job) e.limits.requestTimeout e.headers .null

/-- What a reply to it brings. -/
def answer (e : Server.Entry) (job : String) (x : Request × Reply) : Except Problem Json :=
  payload .get (e.statusUrl job) e.limits.requestTimeout x.1.url.isPlaced x.2

/-- What the call comes to with an answer, unless the job is pending still. -/
def verdict? (job : String) : Except Problem Json → Option (Except Problem Json)
  | .error p => some (.error p)
  | .ok status =>
    match JobState.ofJson status with
    | .completed => some (.ok status)
    | .failed => some (.error (.failure (.oracleRejected ("job " ++ job ++ " failed") status none)))
    | .pending => none

def pendingNote (context : Journal.Fields) (job : String) (attempts : Nat) (status : Json) :
    Process.Step :=
  ⟨.note (entry context "job pending" [("job_id", job), ("attempt", attempts),
    ("status", (status.member? "status").getD .null)]), ()⟩

/-- The steps behind the last reply. -/
def closing (context : Journal.Fields) (job : String) (attempts : Nat) :
    Except Problem Json → Log
  | .ok _ => [⟨.note (entry context "job completed" [("job_id", job), ("attempts", attempts)]), ()⟩]
  | .error _ => []

/-- The steps in which the state of a job is asked for, at most `left` times more after `attempts`
times before. The time is read first, and there is a wait after each reply without a verdict. -/
inductive Polls (t : Transport) (context : Journal.Fields) (e : Server.Entry) (job : String)
    (started : Float) : (left attempts : Nat) → Log → Except Problem Json → Prop
  | spent {left attempts : Nat} (now : Float)
      (exceeded : left = 0 ∨ e.limits.overallTimeout < now - started) :
      Polls t context e job started left attempts [⟨.clock, now⟩]
        (.error (.failure (expired e job attempts (now - started))))
  | unmade {left attempts : Nat} {now : Float} {p : Problem}
      (timely : ¬e.limits.overallTimeout < now - started) (unmade : t.inquiry e job = .error p) :
      Polls t context e job started (left + 1) attempts
        [⟨.clock, now⟩, requestNote context .get (e.statusUrl job)] (.error p)
  | ended {left attempts : Nat} {now : Float} {request : Request} {reply : Reply}
      {r : Except Problem Json} (timely : ¬e.limits.overallTimeout < now - started)
      (made : t.inquiry e job = .ok request)
      (verdict : verdict? job (answer e job (request, reply)) = some r) :
      Polls t context e job started (left + 1) attempts
        (⟨.clock, now⟩ :: requestNote context .get (e.statusUrl job) :: ⟨.send request, reply⟩ ::
          closing context job (attempts + 1) r) r
  | again {left attempts : Nat} {now : Float} {request : Request} {reply : Reply} {status : Json}
      {rest : Log} {r : Except Problem Json} (timely : ¬e.limits.overallTimeout < now - started)
      (made : t.inquiry e job = .ok request)
      (answered : answer e job (request, reply) = .ok status)
      (pending : verdict? job (.ok status) = none)
      (tail : Polls t context e job started left (attempts + 1) rest r) :
      Polls t context e job started (left + 1) attempts
        (⟨.clock, now⟩ :: requestNote context .get (e.statusUrl job) :: ⟨.send request, reply⟩ ::
          pendingNote context job (attempts + 1) status :: ⟨.sleep e.limits.interval, ()⟩ :: rest) r

variable {left attempts : Nat}

theorem polls_of_runs (h : (t.await context e job started left attempts).run.Runs log r) :
    Polls t context e job started left attempts log r := by
  induction left generalizing attempts log with
  | zero =>
    unfold await at h
    obtain ⟨now, rest, rfl, hrest⟩ := Activity.runs_once_bind_iff.1 h
    obtain ⟨rfl, rfl⟩ := Activity.runs_fail_iff.1 hrest
    exact .spent now (.inl rfl)
  | succ left ih =>
    unfold await at h
    obtain ⟨now, rest, rfl, hrest⟩ := Activity.runs_once_bind_iff.1 h
    by_cases hover : e.limits.overallTimeout < now - started
    · rw [if_pos hover] at hrest
      obtain ⟨rfl, rfl⟩ := Activity.runs_fail_iff.1 hrest
      exact .spent now (.inr hover)
    rw [if_neg hover] at hrest
    rcases Activity.runs_bind_iff.1 hrest with ⟨l₁, l₂, status, rfl, hasked, hgo⟩ | ⟨p, rfl, hcut⟩
    · rcases of_runs_exchange hasked with ⟨p, -, hp, -⟩ | ⟨request, reply, hmade, hanswer, rfl⟩
      · cases hp
      have hanswer : answer e job (request, reply) = .ok status := hanswer.symm
      cases hstate : JobState.ofJson status with
      | completed =>
        simp only [hstate] at hgo
        obtain ⟨_, last, rfl, hlast⟩ := Activity.runs_once_bind_iff.1 hgo
        obtain ⟨rfl, rfl⟩ := Activity.runs_pure_iff.1 hlast
        have hverdict : verdict? job (answer e job (request, reply)) = some (.ok status) := by
          simp only [hanswer, verdict?, hstate]
        exact .ended hover hmade hverdict
      | failed =>
        simp only [hstate] at hgo
        obtain ⟨rfl, rfl⟩ := Activity.runs_fail_iff.1 hgo
        have hverdict : verdict? job (answer e job (request, reply)) = some
            (.error (.failure (.oracleRejected ("job " ++ job ++ " failed") status none))) := by
          simp only [hanswer, verdict?, hstate]
        exact .ended hover hmade hverdict
      | pending =>
        simp only [hstate] at hgo
        obtain ⟨_, l₃, rfl, hnoted⟩ := Activity.runs_once_bind_iff.1 hgo
        obtain ⟨_, l₄, rfl, hslept⟩ := Activity.runs_once_bind_iff.1 hnoted
        have hpending : verdict? job (.ok status) = none := by simp only [verdict?, hstate]
        exact .again hover hmade hanswer hpending (ih hslept)
    · rcases of_runs_exchange hcut with ⟨p', hunmade, hp, rfl⟩ | ⟨request, reply, hmade, hp, rfl⟩
      · cases hp
        exact .unmade hover hunmade
      · have hanswer : answer e job (request, reply) = .error p := hp.symm
        have hverdict : verdict? job (answer e job (request, reply)) = some (.error p) := by
          simp only [hanswer, verdict?]
        exact .ended hover hmade hverdict

/-- A verdict is a value that a reply brought, a failure, or what kept the reply from bringing a
value. -/
theorem of_verdict {a : Except Problem Json} (h : verdict? job a = some r) :
    (∃ v, r = .ok v ∧ a = .ok v ∧ JobState.ofJson v = .completed) ∨
      (∃ v, a = .ok v ∧ JobState.ofJson v = .failed ∧
        r = .error (.failure (.oracleRejected ("job " ++ job ++ " failed") v none))) ∨
      ∃ p, a = .error p ∧ r = .error p := by
  cases a with
  | error p =>
    cases h
    exact .inr (.inr ⟨p, rfl, rfl⟩)
  | ok v =>
    unfold verdict? at h
    cases hstate : JobState.ofJson v <;> simp only [hstate] at h <;> cases h
    · exact .inl ⟨v, rfl, rfl, hstate⟩
    · exact .inr (.inl ⟨v, rfl, hstate, rfl⟩)

theorem isQuiet_pendingNote (context : Journal.Fields) (job : String) (attempts : Nat)
    (status : Json) : IsQuiet (pendingNote context job attempts status) :=
  isQuiet_note (by simp [entry]) ()

theorem exchanges_round (log : Log) (now : Float) (request : Request) (reply : Reply) :
    Log.exchanges (⟨.clock, now⟩ :: requestNote context method url :: ⟨.send request, reply⟩ ::
      log) = (request, reply) :: log.exchanges :=
  rfl

theorem exchanges_wait (rest : Log) (attempts : Nat) (status : Json) (seconds : Float) :
    Log.exchanges (pendingNote context job attempts status :: ⟨.sleep seconds, ()⟩ :: rest) =
      rest.exchanges :=
  rfl

theorem isQuiet_of_mem_closing {s : Process.Step} (h : s ∈ closing context job attempts r) :
    IsQuiet s := by
  cases r with
  | error p => exact absurd h List.not_mem_nil
  | ok v =>
    rw [List.mem_singleton.1 h]
    exact isQuiet_note (by simp [entry]) ()

theorem exchanges_closing : Log.exchanges (closing context job attempts r) = [] :=
  exchanges_of_quiet fun _ hs => isQuiet_of_mem_closing hs

theorem exchanges_between {before log after : Log} (h : ∀ s ∈ before ++ after, IsQuiet s) :
    Log.exchanges (before ++ (log ++ after)) = log.exchanges := by
  have hbefore := exchanges_of_quiet fun s hs => h s (List.mem_append_left _ hs)
  have hafter := exchanges_of_quiet fun s hs => h s (List.mem_append_right _ hs)
  rw [Log.exchanges_append, Log.exchanges_append, hbefore, hafter, List.nil_append, List.append_nil]

theorem faulted_between {before log after : Log} (h : ∀ s ∈ before ++ after, IsQuiet s) :
    t.Faulted headers (before ++ (log ++ after)) ↔ t.Faulted headers log := by
  have hbefore : ¬t.Faulted headers before :=
    not_faulted_of_quiet fun s hs => h s (List.mem_append_left _ hs)
  have hafter : ¬t.Faulted headers after :=
    not_faulted_of_quiet fun s hs => h s (List.mem_append_right _ hs)
  rw [faulted_append, faulted_append, or_iff_right hbefore, or_iff_left hafter]

theorem method_of_polls (h : Polls t context e job started left attempts log r) :
    ∀ x ∈ log.exchanges, x.1.method = .get := by
  induction h with
  | spent now exceeded => exact fun x hx => absurd hx List.not_mem_nil
  | unmade timely unmade => exact fun x hx => absurd hx List.not_mem_nil
  | ended timely made verdict =>
    rw [exchanges_round, exchanges_closing]
    exact List.forall_mem_singleton.2 (of_request_eq_ok made).1
  | again timely made answered pending tail ih =>
    rw [exchanges_round, exchanges_wait]
    exact List.forall_mem_cons.2 ⟨(of_request_eq_ok made).1, ih⟩

theorem brings_of_polls {v : Json} (h : Polls t context e job started left attempts log r)
    (hv : r = .ok v) : ∃ x, log.exchanges.getLast? = some x ∧ x.2.Brings v := by
  induction h with
  | spent now exceeded => cases hv
  | unmade timely unmade => cases hv
  | ended timely made verdict =>
    cases hv
    rw [exchanges_round, exchanges_closing]
    rcases of_verdict verdict with ⟨w, hw, hanswer, -⟩ | ⟨w, -, -, hw⟩ | ⟨p, -, hw⟩ <;> cases hw
    exact ⟨_, rfl, brings_of_payload hanswer⟩
  | again timely made answered pending tail ih =>
    obtain ⟨x, hlast, hbrings⟩ := ih hv
    rw [exchanges_round, exchanges_wait, List.getLast?_cons, hlast]
    exact ⟨x, rfl, hbrings⟩

theorem not_broken_ok (v : Json) : ¬Broken (.ok v) := by
  rintro ⟨p, hp, -⟩
  cases hp

theorem not_broken_failure (f : Failure) : ¬Broken (.error (.failure f)) := by
  rintro ⟨p, hp, hno⟩
  cases hp
  exact hno ⟨f, rfl⟩

/-- A verdict breaks nothing off, as long as the client keeps to its documentation. -/
theorem not_broken_of_verdict {request : Request} {reply : Reply}
    (h : verdict? job (answer e job (request, reply)) = some r) (hreply : reply ≠ .unusableUrl)
    (hplaced : ∀ status body, reply = .answered status body → request.url.isPlaced = true) :
    ¬Broken r := by
  rcases of_verdict h with ⟨v, rfl, -, -⟩ | ⟨v, -, -, rfl⟩ | ⟨p, hanswer, rfl⟩
  · exact not_broken_ok v
  · exact not_broken_failure _
  · rintro ⟨p', hp, hno⟩
    cases hp
    exact hno (isFailure_of_payload hanswer hreply hplaced)

/-- Polling is broken off exactly when the address of a job cannot be used. -/
theorem broken_iff_of_polls (h : Polls t context e job started left attempts log r)
    (hlog : log.Sound) : Broken r ↔ t.Faulted e.headers log := by
  have hbody : Json.isFinite .null = true := rfl
  induction h with
  | spent now exceeded =>
    rw [faulted_cons (isQuiet_clock now).2]
    exact iff_of_false (not_broken_failure _) not_faulted_nil
  | unmade timely unmade =>
    rw [faulted_cons (isQuiet_clock _).2, faulted_requestNote_cons]
    refine iff_of_true ⟨_, rfl, not_isFailure_of_request unmade⟩ ?_
    exact .inl (not_reaches_of_request hbody unmade)
  | @ended left attempts now request reply r timely made verdict =>
    obtain ⟨hreply, hplaced⟩ := hlog (request, reply) (List.mem_cons_self ..)
    rw [faulted_cons (isQuiet_clock _).2, faulted_requestNote_cons, faulted_send_cons]
    refine iff_of_false (not_broken_of_verdict verdict hreply hplaced) (not_or.2 ⟨not_not.2 ?_, ?_⟩)
    · exact (exists_request_iff hbody).1 ⟨request, made⟩
    · exact not_faulted_of_quiet fun _ hs => isQuiet_of_mem_closing hs
  | @again left attempts now request reply status rest r timely made answered pending tail ih =>
    have hreach := (exists_request_iff hbody).1 ⟨request, made⟩
    have hrest : rest.Sound := fun x hx => hlog x (List.mem_cons_of_mem _ hx)
    rw [faulted_cons (isQuiet_clock _).2, faulted_requestNote_cons, faulted_send_cons,
      faulted_cons (isQuiet_pendingNote ..).2, faulted_cons (isQuiet_sleep ..).2,
      or_iff_right (not_not.2 hreach)]
    exact ih hrest

/-! ### Calls -/

variable {path : String}

/-- The steps of a call that is polled: the time, the POST request, and if its answer names a job
the requests for the state of the job. -/
theorem of_runs_poll (h : (t.poll context e url body).run.Runs log r) :
    ∃ started first rest r₁, log = ⟨.clock, started⟩ :: (first ++ rest) ∧
      (t.exchange context .post url e.limits.requestTimeout e.headers body).run.Runs first r₁ ∧
      ((∃ p, rest = [] ∧ r₁ = .error p ∧ r = .error p) ∨
        (∃ ack, rest = [] ∧ r₁ = .ok ack ∧ jobOf? ack = none ∧
          r = .error (.failure (.oracleRejected (url ++ " did not answer with a jobId") ack none))) ∨
        ∃ ack job, r₁ = .ok ack ∧ jobOf? ack = some job ∧
          Polls t context e job started e.limits.maxAttempts.toNat 0 rest r) := by
  unfold poll at h
  obtain ⟨started, l, rfl, hpost⟩ := Activity.runs_once_bind_iff.1 h
  rcases Activity.runs_bind_iff.1 hpost with ⟨l₁, l₂, ack, rfl, hfirst, hgo⟩ | ⟨p, rfl, hstop⟩
  · refine ⟨started, l₁, l₂, .ok ack, rfl, hfirst, .inr ?_⟩
    cases hjob : jobOf? ack with
    | none =>
      simp only [hjob] at hgo
      obtain ⟨rfl, rfl⟩ := Activity.runs_fail_iff.1 hgo
      exact .inl ⟨ack, rfl, rfl, hjob, rfl⟩
    | some job =>
      simp only [hjob] at hgo
      exact .inr ⟨ack, job, rfl, hjob, polls_of_runs hgo⟩
  · exact ⟨started, l, [], .error p, by simp, hstop, .inl ⟨p, rfl, rfl, rfl⟩⟩

/-- The steps of a call: the POST request, and if its answer names a job the requests for the state
of the job. -/
theorem of_runs_call (h : (t.call context e path body).run.Runs log r) :
    ∃ before first rest timeout r₁, log = before ++ (first ++ rest) ∧ (∀ s ∈ before, IsQuiet s) ∧
      (t.exchange context .post (e.urlFor path) timeout e.headers body).run.Runs first r₁ ∧
      ((rest = [] ∧ r = r₁) ∨
        (∃ ack f, rest = [] ∧ r₁ = .ok ack ∧ r = .error (.failure f)) ∨
        ∃ ack job started left, r₁ = .ok ack ∧ jobOf? ack = some job ∧
          Polls t context e job started left 0 rest r) := by
  unfold call at h
  split at h
  · obtain ⟨started, first, rest, r₁, rfl, hfirst, hrest⟩ := of_runs_poll h
    refine ⟨[⟨.clock, started⟩], first, rest, _, r₁, rfl, ?_, hfirst, ?_⟩
    · simpa using isQuiet_clock started
    · rcases hrest with ⟨p, rfl, rfl, rfl⟩ | ⟨ack, rfl, rfl, -, rfl⟩ | ⟨ack, job, rfl, hjob, hpolls⟩
      · exact .inl ⟨rfl, rfl⟩
      · exact .inr (.inl ⟨ack, _, rfl, rfl, rfl⟩)
      · exact .inr (.inr ⟨ack, job, started, _, rfl, hjob, hpolls⟩)
  · exact ⟨[], log, [], _, r, by simp, by simp, h, .inl ⟨rfl, rfl⟩⟩

/-- Unless it stops before anything is sent, a call sends one POST request, and then only GET
requests. -/
theorem sent_of_call (h : (t.call context e path body).run.Runs log r) :
    (log.exchanges = [] ∧ ∃ p, r = .error p) ∨
    ∃ post reply gets timeout, log.exchanges = (post, reply) :: gets ∧
      t.request .post (e.urlFor path) timeout e.headers body = .ok post ∧
      ∀ x ∈ gets, x.1.method = .get := by
  obtain ⟨before, first, rest, timeout, r₁, rfl, quiet, hfirst, hrest⟩ := of_runs_call h
  rw [Log.exchanges_append, exchanges_of_quiet quiet, List.nil_append, Log.exchanges_append]
  have hgets : ∀ x ∈ Log.exchanges rest, x.1.method = .get := by
    rcases hrest with ⟨rfl, -⟩ | ⟨_, _, rfl, -⟩ | ⟨ack, job, _, _, -, -, hpolls⟩
    · exact fun x hx => absurd hx List.not_mem_nil
    · exact fun x hx => absurd hx List.not_mem_nil
    · exact method_of_polls hpolls
  rcases of_runs_exchange hfirst with ⟨p, -, rfl, rfl⟩ | ⟨post, reply, hmade, -, rfl⟩
  · rcases hrest with ⟨rfl, rfl⟩ | ⟨_, _, -, hack, -⟩ | ⟨_, _, _, _, hack, -⟩
    · exact .inl ⟨rfl, p, rfl⟩
    · cases hack
    · cases hack
  · exact .inr ⟨post, reply, _, timeout, rfl, hmade, hgets⟩

/-- The value of a call came with its last reply. -/
theorem brings_of_call {v : Json} (h : (t.call context e path body).run.Runs log (.ok v)) :
    ∃ x, log.exchanges.getLast? = some x ∧ x.2.Brings v := by
  obtain ⟨before, first, rest, timeout, r₁, rfl, quiet, hfirst, hrest⟩ := of_runs_call h
  rw [Log.exchanges_append, exchanges_of_quiet quiet, List.nil_append, Log.exchanges_append]
  rcases hrest with ⟨rfl, rfl⟩ | ⟨_, _, -, -, hr⟩ | ⟨ack, job, _, _, -, -, hpolls⟩
  · obtain ⟨post, reply, -, hlog, hbrings⟩ := of_runs_exchange_ok hfirst
    rw [hlog]
    exact ⟨_, rfl, hbrings⟩
  · cases hr
  · obtain ⟨x, hlast, hbrings⟩ := brings_of_polls hpolls rfl
    exact ⟨x, by rw [List.getLast?_append, hlast]; rfl, hbrings⟩

/-- A call is broken off exactly when it sets out for an address that cannot be used. -/
theorem broken_iff_of_call (h : (t.call context e path body).run.Runs log r)
    (hbody : body.isFinite = true) (hlog : log.Sound) : Broken r ↔ t.Faulted e.headers log := by
  obtain ⟨before, first, rest, timeout, r₁, rfl, quiet, hfirst, hrest⟩ := of_runs_call h
  obtain ⟨hsound, hlater⟩ := Log.sound_append.1 (Log.sound_append.1 hlog).2
  have hpost := broken_iff_of_exchange hfirst hbody hsound
  rw [faulted_append, faulted_append, or_iff_right (not_faulted_of_quiet quiet), ← hpost]
  rcases hrest with ⟨rfl, rfl⟩ | ⟨ack, f, rfl, rfl, rfl⟩ | ⟨ack, job, _, _, rfl, -, hpolls⟩
  · exact (or_iff_left not_faulted_nil).symm
  · exact iff_of_false (not_broken_failure f) (not_or.2 ⟨not_broken_ok ack, not_faulted_nil⟩)
  · rw [or_iff_right (not_broken_ok ack)]
    exact broken_iff_of_polls hpolls hlater

end Transport

end FeltRelay
