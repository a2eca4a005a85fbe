import FeltRelay.Proofs.Transport

/-!
# Polled calls

A call that is polled posts once and asks for the state of the job at one address. It keeps within
both budgets, waits once after each reply that leaves the job pending, and comes to the verdict of
the first reply that has one, or to a timeout when a budget is spent (`call_of_polling`).
-/

namespace FeltRelay.Transport

open FeltRelay.Network

variable {t : Transport} {context : Journal.Fields} {e : Server.Entry} {job url path : String}
  {body : Json} {started : Float} {left attempts : Nat} {log : Log} {r : Except Problem Json}

/-- A reply to a request for the state of a job that leaves it pending. -/
def LeavesPending (e : Server.Entry) (job : String) (x : Request × Reply) : Prop :=
  ∃ status, answer e job x = .ok status ∧ JobState.ofJson status = .pending

/-- How asking for the state of a job ends: a budget is spent, the last reply has a verdict, or
the request cannot be made. -/
inductive Ends (t : Transport) (e : Server.Entry) (job : String) (started : Float)
    (left attempts : Nat) (log : Log) (r : Except Problem Json) : Prop
  | expired (now : Float) (last : log.getLast? = some ⟨.clock, now⟩)
      (pending : ∀ x ∈ log.exchanges, LeavesPending e job x)
      (spent : log.exchanges.length = left ∨ e.limits.overallTimeout < now - started)
      (timeout : r = .error (.failure
        (expired e job (attempts + log.exchanges.length) (now - started))))
  | decided (x : Request × Reply) (last : log.exchanges.getLast? = some x)
      (pending : ∀ y ∈ log.exchanges.dropLast, LeavesPending e job y)
      (verdict : verdict? job (answer e job x) = some r)
  | unmade {p : Problem} (unmade : t.inquiry e job = .error p)
      (pending : ∀ x ∈ log.exchanges, LeavesPending e job x) (problem : r = .error p)

/-- How the state of a job is asked for. -/
structure Asked (t : Transport) (context : Journal.Fields) (e : Server.Entry) (job : String)
    (started : Float) (left attempts : Nat) (log : Log) (r : Except Problem Json) : Prop where
  /-- Every request is the same one. -/
  requests : ∀ x ∈ log.exchanges, t.inquiry e job = .ok x.1 ∧ x.1.method = .get ∧
    Url.read? (e.statusUrl job) = some x.1.url
  length_le : log.exchanges.length ≤ left
  /-- Right before a request the time is read, and it is not over. -/
  timely : ∀ before request reply after, log = before ++ ⟨.send request, reply⟩ :: after →
    ∃ earlier now, before = earlier ++
        [⟨.clock, now⟩, requestNote context .get (e.statusUrl job)] ∧
      ¬e.limits.overallTimeout < now - started
  /-- Right behind a reply that leaves the job pending there is a wait. -/
  waits : ∀ before request reply after, log = before ++ ⟨.send request, reply⟩ :: after →
    LeavesPending e job (request, reply) →
      ∃ attempt status rest, after =
        pendingNote context job attempt status :: ⟨.sleep e.limits.interval, ()⟩ :: rest
  /-- And there is no other wait. -/
  slept : ∀ before seconds after, log = before ++ ⟨.sleep seconds, ()⟩ :: after →
    seconds = e.limits.interval ∧ ∃ earlier request reply attempt status,
      before = earlier ++ [⟨.send request, reply⟩, pendingNote context job attempt status] ∧
      LeavesPending e job (request, reply)
  ends : Ends t e job started left attempts log r

/-! ### One round -/

theorem of_inquiry {request : Request} (made : t.inquiry e job = .ok request) :
    t.inquiry e job = .ok request ∧ request.method = .get ∧
      Url.read? (e.statusUrl job) = some request.url := by
  obtain ⟨hmethod, hurl, -⟩ := of_request_eq_ok made
  exact ⟨made, hmethod, hurl⟩

theorem leavesPending_of_verdict {x : Request × Reply} {status : Json}
    (h : answer e job x = .ok status) (hnone : verdict? job (.ok status) = none) :
    LeavesPending e job x := by
  refine ⟨status, h, ?_⟩
  cases hstate : JobState.ofJson status with
  | pending => rfl
  | completed => simp [verdict?, hstate] at hnone
  | failed => simp [verdict?, hstate] at hnone

theorem not_leavesPending_of_verdict {x : Request × Reply}
    (h : verdict? job (answer e job x) = some r) : ¬LeavesPending e job x := by
  rintro ⟨status, hanswer, hstate⟩
  simp only [hanswer, verdict?, hstate] at h
  cases h

/-- The requests of a log that starts with a round: the one of the round, and those behind. -/
theorem send_of_round {now : Float} {request request' : Request} {reply reply' : Reply}
    {before after : Log}
    (h : ⟨.clock, now⟩ :: requestNote context .get url :: ⟨.send request, reply⟩ :: log =
      before ++ ⟨.send request', reply'⟩ :: after) :
    (before = [⟨.clock, now⟩, requestNote context .get url] ∧ request' = request ∧
        reply' = reply ∧ after = log) ∨
      ∃ behind, before = ⟨.clock, now⟩ :: requestNote context .get url ::
          ⟨.send request, reply⟩ :: behind ∧ log = behind ++ ⟨.send request', reply'⟩ :: after := by
  rcases before with _ | ⟨s₁, _ | ⟨s₂, _ | ⟨s₃, behind⟩⟩⟩
  · cases h
  · cases h
  · cases h
    exact .inl ⟨rfl, rfl, rfl, rfl⟩
  · cases h
    exact .inr ⟨behind, rfl, rfl⟩

theorem asked_spent (now : Float) (exceeded : left = 0 ∨ e.limits.overallTimeout < now - started) :
    Asked t context e job started left attempts [⟨.clock, now⟩]
      (.error (.failure (expired e job attempts (now - started)))) where
  requests := fun _ hx => absurd hx List.not_mem_nil
  length_le := Nat.zero_le left
  timely := by
    rintro (_ | ⟨_, _ | _⟩) request reply after h <;> cases h
  waits := by
    rintro (_ | ⟨_, _ | _⟩) request reply after h <;> cases h
  slept := by
    rintro (_ | ⟨_, _ | _⟩) seconds after h <;> cases h
  ends := .expired now rfl (fun _ hx => absurd hx List.not_mem_nil) (exceeded.imp_left Eq.symm) rfl

theorem asked_unmade {now : Float} {p : Problem} (unmade : t.inquiry e job = .error p) :
    Asked t context e job started (left + 1) attempts
      [⟨.clock, now⟩, requestNote context .get (e.statusUrl job)] (.error p) where
  requests := fun _ hx => absurd hx List.not_mem_nil
  length_le := Nat.zero_le _
  timely := by
    rintro (_ | ⟨_, _ | ⟨_, _ | _⟩⟩) request reply after h <;> cases h
  waits := by
    rintro (_ | ⟨_, _ | ⟨_, _ | _⟩⟩) request reply after h <;> cases h
  slept := by
    rintro (_ | ⟨_, _ | ⟨_, _ | _⟩⟩) seconds after h <;> cases h
  ends := .unmade unmade (fun _ hx => absurd hx List.not_mem_nil) rfl

/-- Behind the last reply there are notes only. -/
theorem closing_ne {s : Process.Step} {behind after : Log}
    (hs : ∀ record, s ≠ ⟨.note record, ()⟩) :
    closing context job attempts r ≠ behind ++ s :: after := by
  intro h
  have hmem : s ∈ closing context job attempts r := by
    rw [h]
    exact List.mem_append_right _ (List.mem_cons_self ..)
  cases r with
  | error p => exact List.not_mem_nil hmem
  | ok v => exact hs _ (List.mem_singleton.1 hmem)

theorem asked_ended {now : Float} {request : Request} {reply : Reply}
    (timely : ¬e.limits.overallTimeout < now - started) (made : t.inquiry e job = .ok request)
    (verdict : verdict? job (answer e job (request, reply)) = some r) :
    Asked t context e job started (left + 1) attempts
      (⟨.clock, now⟩ :: requestNote context .get (e.statusUrl job) :: ⟨.send request, reply⟩ ::
        closing context job (attempts + 1) r) r where
  requests := by
    rw [exchanges_round, exchanges_closing]
    exact List.forall_mem_singleton.2 (of_inquiry made)
  length_le := by
    rw [exchanges_round, exchanges_closing]
    exact Nat.le_add_left 1 left
  timely := by
    intro before request' reply' after h
    rcases send_of_round h with ⟨rfl, -, -, -⟩ | ⟨behind, -, hclosing⟩
    · exact ⟨[], now, rfl, timely⟩
    · exact absurd hclosing (closing_ne fun _ heq => by cases heq)
  waits := by
    intro before request' reply' after h hpending
    rcases send_of_round h with ⟨-, rfl, rfl, -⟩ | ⟨behind, -, hclosing⟩
    · exact absurd hpending (not_leavesPending_of_verdict verdict)
    · exact absurd hclosing (closing_ne fun _ heq => by cases heq)
  slept := by
    intro before seconds after h
    rcases before with _ | ⟨s₁, _ | ⟨s₂, _ | ⟨s₃, behind⟩⟩⟩
    · cases h
    · cases h
    · cases h
    · have hclosing := (List.cons.inj (List.cons.inj (List.cons.inj h).2).2).2
      exact absurd hclosing (closing_ne fun _ heq => by cases heq)
  ends := by
    refine .decided (request, reply) ?_ ?_ verdict
    · rw [exchanges_round, exchanges_closing]
      rfl
    · rw [exchanges_round, exchanges_closing]
      exact fun _ hy => absurd hy List.not_mem_nil

/-- A round that leaves the job pending is put before the rounds that follow. -/
theorem Asked.again {now : Float} {request : Request} {reply : Reply} {status : Json} {rest : Log}
    (timely : ¬e.limits.overallTimeout < now - started) (made : t.inquiry e job = .ok request)
    (pending : LeavesPending e job (request, reply))
    (tail : Asked t context e job started left (attempts + 1) rest r) :
    Asked t context e job started (left + 1) attempts
      (⟨.clock, now⟩ :: requestNote context .get (e.statusUrl job) :: ⟨.send request, reply⟩ ::
        pendingNote context job (attempts + 1) status :: ⟨.sleep e.limits.interval, ()⟩ ::
          rest) r where
  requests := by
    rw [exchanges_round, exchanges_wait]
    exact List.forall_mem_cons.2 ⟨of_inquiry made, tail.requests⟩
  length_le := by
    rw [exchanges_round, exchanges_wait]
    exact Nat.succ_le_succ tail.length_le
  timely := by
    intro before request' reply' after h
    rcases send_of_round h with ⟨rfl, -, -, -⟩ | ⟨behind, rfl, hbehind⟩
    · exact ⟨[], now, rfl, timely⟩
    rcases behind with _ | ⟨s₁, _ | ⟨s₂, behind⟩⟩
    · cases hbehind
    · cases hbehind
    · cases hbehind
      obtain ⟨earlier, now', rfl, hnow⟩ := tail.timely behind request' reply' after rfl
      exact ⟨_ :: _ :: _ :: _ :: _ :: earlier, now', rfl, hnow⟩
  waits := by
    intro before request' reply' after h hpending
    rcases send_of_round h with ⟨-, -, -, rfl⟩ | ⟨behind, rfl, hbehind⟩
    · exact ⟨_, _, rest, rfl⟩
    rcases behind with _ | ⟨s₁, _ | ⟨s₂, behind⟩⟩
    · cases hbehind
    · cases hbehind
    · cases hbehind
      exact tail.waits behind request' reply' after rfl hpending
  slept := by
    intro before seconds after h
    rcases before with _ | ⟨s₁, _ | ⟨s₂, _ | ⟨s₃, _ | ⟨s₄, _ | ⟨s₅, behind⟩⟩⟩⟩⟩
    · cases h
    · cases h
    · cases h
    · cases h
    · cases h
      exact ⟨rfl, [_, _], request, reply, _, _, rfl, pending⟩
    · cases h
      obtain ⟨hseconds, earlier, request', reply', attempt, status', rfl, hpending⟩ :=
        tail.slept behind seconds after rfl
      exact ⟨hseconds, _ :: _ :: _ :: _ :: _ :: earlier, request', reply', attempt, status', rfl,
        hpending⟩
  ends := by
    cases tail.ends with
    | expired now' last hpending spent timeout =>
      refine .expired now' ?_ ?_ ?_ ?_
      · rw [List.getLast?_cons, List.getLast?_cons, List.getLast?_cons, List.getLast?_cons,
          List.getLast?_cons, last]
        rfl
      · rw [exchanges_round, exchanges_wait]
        exact List.forall_mem_cons.2 ⟨pending, hpending⟩
      · rw [exchanges_round, exchanges_wait]
        exact spent.imp_left (congrArg Nat.succ)
      · rw [exchanges_round, exchanges_wait, List.length_cons, timeout, Nat.add_assoc,
          Nat.add_comm 1]
    | decided x last hpending verdict =>
      have hne : rest.exchanges ≠ [] := by
        intro hnil
        rw [hnil] at last
        cases last
      refine .decided x ?_ ?_ verdict
      · rw [exchanges_round, exchanges_wait, List.getLast?_cons, last]
        rfl
      · rw [exchanges_round, exchanges_wait, List.dropLast_cons_of_ne_nil hne]
        exact List.forall_mem_cons.2 ⟨pending, hpending⟩
    | unmade unmade hpending problem =>
      refine .unmade unmade ?_ problem
      rw [exchanges_round, exchanges_wait]
      exact List.forall_mem_cons.2 ⟨pending, hpending⟩

theorem asked_of_polls (h : Polls t context e job started left attempts log r) :
    Asked t context e job started left attempts log r := by
  induction h with
  | spent now exceeded => exact asked_spent now exceeded
  | unmade timely unmade => exact asked_unmade unmade
  | ended timely made verdict => exact asked_ended timely made verdict
  | again timely made answered pending tail ih =>
    exact ih.again timely made (leavesPending_of_verdict answered pending)

/-! ### Calls -/

/-- What follows the note of the only POST request. Unless it cannot be made or its reply names no
job, the state of the job is asked for. -/
inductive Polled (t : Transport) (context : Journal.Fields) (e : Server.Entry) (path : String)
    (body : Json) (started : Float) : Log → Except Problem Json → Prop
  | unmade {p : Problem}
      (unmade : t.request .post (e.urlFor path) e.limits.requestTimeout e.headers body = .error p) :
      Polled t context e path body started [] (.error p)
  | unanswered {post : Request} {reply : Reply} {p : Problem}
      (made : t.request .post (e.urlFor path) e.limits.requestTimeout e.headers body = .ok post)
      (problem : payload .post (e.urlFor path) e.limits.requestTimeout post.url.isPlaced reply =
        .error p) :
      Polled t context e path body started [⟨.send post, reply⟩] (.error p)
  | unnamed {post : Request} {reply : Reply} {ack : Json}
      (made : t.request .post (e.urlFor path) e.limits.requestTimeout e.headers body = .ok post)
      (answered : payload .post (e.urlFor path) e.limits.requestTimeout post.url.isPlaced reply =
        .ok ack)
      (unnamed : jobOf? ack = none) :
      Polled t context e path body started [⟨.send post, reply⟩] (.error (.failure
        (.oracleRejected (e.urlFor path ++ " did not answer with a jobId") ack none)))
  | asked {post : Request} {reply : Reply} {ack : Json} {job : String} {later : Log}
      {r : Except Problem Json}
      (made : t.request .post (e.urlFor path) e.limits.requestTimeout e.headers body = .ok post)
      (answered : payload .post (e.urlFor path) e.limits.requestTimeout post.url.isPlaced reply =
        .ok ack)
      (named : jobOf? ack = some job)
      (asked : Asked t context e job started e.limits.maxAttempts.toNat 0 later r) :
      Polled t context e path body started (⟨.send post, reply⟩ :: later) r

theorem polled_of_runs (h : (t.poll context e (e.urlFor path) body).run.Runs log r) :
    ∃ (started : Float) (rest : Log),
      log = ⟨.clock, started⟩ :: requestNote context .post (e.urlFor path) :: rest ∧
      Polled t context e path body started rest r := by
  obtain ⟨started, first, rest, r₁, rfl, hfirst, hrest⟩ := of_runs_poll h
  rcases of_runs_exchange hfirst with ⟨p, hunmade, rfl, rfl⟩ | ⟨post, reply, hmade, rfl, rfl⟩
  · rcases hrest with ⟨p', rfl, hp, rfl⟩ | ⟨_, _, hack, -⟩ | ⟨_, _, hack, -⟩
    · cases hp
      exact ⟨started, [], rfl, .unmade hunmade⟩
    · cases hack
    · cases hack
  · rcases hrest with
      ⟨p, rfl, hp, rfl⟩ | ⟨ack, rfl, hack, hjob, rfl⟩ | ⟨ack, job, hack, hjob, hpolls⟩
    · exact ⟨started, _, rfl, .unanswered hmade hp⟩
    · exact ⟨started, _, rfl, .unnamed hmade hack hjob⟩
    · exact ⟨started, _, rfl, .asked hmade hack hjob (asked_of_polls hpolls)⟩

/-! ### Results -/

theorem member?_of_completed {v : Json} (h : JobState.ofJson v = .completed) :
    v.member? "status" = some (.str "completed") := by
  unfold JobState.ofJson at h
  split at h
  · rename_i s hs
    rw [hs]
    by_cases hc : s = "completed"
    · rw [hc]
    · rw [if_neg hc] at h
      split at h <;> cases h
  · cases h

/-- A value is a reply that told completion, as it was received. -/
theorem Ends.completed {v : Json} (h : Ends t e job started left attempts log (.ok v)) :
    ∃ x, log.exchanges.getLast? = some x ∧ x.2.Brings v ∧
      v.member? "status" = some (.str "completed") := by
  cases h with
  | expired now last pending spent timeout => cases timeout
  | decided x last pending verdict =>
    rcases of_verdict verdict with
      ⟨w, hw, hanswer, hstate⟩ | ⟨w, -, -, hw⟩ | ⟨p, -, hw⟩ <;> cases hw
    exact ⟨x, last, brings_of_payload hanswer, member?_of_completed hstate⟩
  | unmade unmade pending problem => cases problem

theorem payload_of_brings {method : Method} {timeout : Float} {reply : Reply} {v : Json}
    (h : reply.Brings v) : payload method url timeout true reply = .ok v := by
  obtain ⟨status, bytes, rfl, hsuccess, hvalue⟩ := h
  simp [payload, hvalue, hsuccess]

/-- A reply that tells failure is the last one, and the call fails with what it brought. -/
theorem Ends.failed {x : Request × Reply} {v : Json}
    (h : Ends t e job started left attempts log r) (hx : x ∈ log.exchanges)
    (hplaced : x.1.url.isPlaced = true) (hv : x.2.Brings v)
    (hstatus : v.member? "status" = some (.str "failed")) :
    log.exchanges.getLast? = some x ∧
      r = .error (.failure (.oracleRejected ("job " ++ job ++ " failed") v none)) := by
  have hanswer : answer e job x = .ok v := by
    unfold answer
    rw [hplaced]
    exact payload_of_brings hv
  have hstate : JobState.ofJson v = .failed := by
    unfold JobState.ofJson
    rw [hstatus]
    rfl
  have hnot : ¬LeavesPending e job x := by
    rintro ⟨status, hstill, hpending⟩
    rw [hanswer] at hstill
    cases hstill
    rw [hstate] at hpending
    cases hpending
  cases h with
  | expired now last pending spent timeout => exact absurd (pending x hx) hnot
  | unmade unmade pending problem => exact absurd (pending x hx) hnot
  | decided y last pending verdict =>
    rw [← List.dropLast_append_getLast? y last, List.mem_append, List.mem_singleton] at hx
    rcases hx with hx | rfl
    · exact absurd (pending x hx) hnot
    · simp only [hanswer, verdict?, hstate] at verdict
      cases verdict
      exact ⟨last, rfl⟩

theorem timedOut_of_payload {method : Method} {timeout : Float} {placed : Bool} {reply : Reply}
    {text : String} {place : Option String}
    (h : payload method url timeout placed reply =
      .error (.failure (.transportError text "TIMEOUT" place))) : reply = .timedOut := by
  cases reply with
  | timedOut => rfl
  | disconnected _ => simp [payload, Failure.transportError] at h
  | misled _ => simp [payload, Failure.transportError] at h
  | unusableUrl => simp [payload] at h
  | answered status bytes =>
    unfold payload at h
    dsimp only at h
    split at h
    · cases h
    · split at h
      · split at h <;> simp [Failure.transportError, Failure.malformedResponse] at h
      · split at h
        · cases h
        · simp [Failure.transportError, Failure.oracleRejected] at h

/-- A timeout is that of the last reply, or a budget is spent and no reply was final. -/
theorem Ends.timeout {text : String} {place : Option String}
    (h : Ends t e job started left attempts log
      (.error (.failure (.transportError text "TIMEOUT" place)))) :
    (∃ x, log.exchanges.getLast? = some x ∧ x.2 = .timedOut) ∨
      ∃ now, log.getLast? = some ⟨.clock, now⟩ ∧ (∀ x ∈ log.exchanges, LeavesPending e job x) ∧
        (log.exchanges.length = left ∨ e.limits.overallTimeout < now - started) := by
  cases h with
  | expired now last pending spent timeout => exact .inr ⟨now, last, pending, spent⟩
  | decided x last pending verdict =>
    rcases of_verdict verdict with ⟨w, hw, -⟩ | ⟨w, -, -, hw⟩ | ⟨p, hanswer, hw⟩
    · cases hw
    · simp [Failure.transportError, Failure.oracleRejected] at hw
    · cases hw
      exact .inl ⟨x, last, timedOut_of_payload hanswer⟩
  | @unmade p unmade pending problem =>
    cases problem
    exact absurd ⟨_, rfl⟩ (not_isFailure_of_request unmade)

/-- A polled call sends one POST request, and then at most as many GET requests as attempts are
allowed, all the same, each of them within the time and with a wait before the next. It comes to a
value only with a reply that tells completion, to a refusal with the first reply that tells failure,
and to a timeout of its own only once a budget is spent and every reply left the job pending. -/
theorem call_of_polling (hpolled : e.polling = true)
    (h : (t.call context e path body).run.Runs log r) :
    ∃ (started : Float) (rest : Log),
      log = ⟨.clock, started⟩ :: requestNote context .post (e.urlFor path) :: rest ∧
      Polled t context e path body started rest r ∧
      (∀ v, r = .ok v → ∃ x, log.exchanges.getLast? = some x ∧ x.2.Brings v ∧
        v.member? "status" = some (.str "completed")) ∧
      (∀ x ∈ rest.exchanges.tail, ∀ v, x.1.url.isPlaced = true → x.2.Brings v →
        v.member? "status" = some (.str "failed") → log.exchanges.getLast? = some x ∧
          ∃ job, r = .error (.failure (.oracleRejected ("job " ++ job ++ " failed") v none))) ∧
      ∀ text place, r = .error (.failure (.transportError text "TIMEOUT" place)) →
        (∃ x, log.exchanges.getLast? = some x ∧ x.2 = .timedOut) ∨
          ∃ job now, rest.getLast? = some ⟨.clock, now⟩ ∧
            (∀ x ∈ rest.exchanges.tail, LeavesPending e job x) ∧
            (rest.exchanges.tail.length = e.limits.maxAttempts.toNat ∨
              e.limits.overallTimeout < now - started) := by
  unfold call at h
  rw [if_pos hpolled] at h
  obtain ⟨started, rest, rfl, hrest⟩ := polled_of_runs h
  refine ⟨started, rest, rfl, hrest, ?_, ?_, ?_⟩
  · rintro v rfl
    cases hrest with
    | @asked post reply ack job later r made answered named asked =>
      obtain ⟨x, hlast, hbrings, hstatus⟩ := asked.ends.completed
      rw [exchanges_round, List.getLast?_cons, hlast]
      exact ⟨x, rfl, hbrings, hstatus⟩
  · intro x hx v hplaced hv hstatus
    cases hrest with
    | asked made answered named asked =>
      obtain ⟨hlast, hr⟩ := asked.ends.failed hx hplaced hv hstatus
      rw [exchanges_round, List.getLast?_cons, hlast]
      exact ⟨rfl, _, hr⟩
    | _ => exact absurd hx List.not_mem_nil
  · rintro text place rfl
    cases hrest with
    | unmade unmade => exact absurd ⟨_, rfl⟩ (not_isFailure_of_request unmade)
    | unanswered made problem => exact .inl ⟨_, rfl, timedOut_of_payload problem⟩
    | @asked post reply ack job later r made answered named asked =>
      rcases asked.ends.timeout with ⟨x, hlast, hreply⟩ | ⟨now, hlast, pending, spent⟩
      · refine .inl ⟨x, ?_, hreply⟩
        rw [exchanges_round, List.getLast?_cons, hlast]
        rfl
      · refine .inr ⟨job, now, ?_, pending, spent⟩
        rw [List.getLast?_cons, hlast]
        rfl

/-- A server whose jobs may be asked for twice. -/
def twice : Server.Entry := ⟨"Roots", "http://h", true, ⟨2, 0.5, 1.0, 9.0⟩, [], none⟩

/-- A job that has ended when it is asked for again. -/
def secondTime : Rehearsal where
  replies := [{ reply := .answered 200 (Text.Utf8.encode "\x7b\"jobId\": 7\x7d") },
    { reply := .answered 200 (Text.Utf8.encode "\x7b\"status\": \"running\"\x7d") },
    { reply := .answered 200 (Text.Utf8.encode "\x7b\"status\": \"completed\"\x7d") }]

theorem call_of_polling_secondTime :
    ∃ log v, (Transport.call {} [] twice "sqrt" .null).run.Runs log (.ok v) ∧
      ∃ x, log.exchanges.getLast? = some x ∧ x.2.Brings v ∧
        v.member? "status" = some (.str "completed") := by
  have hrun := Process.runs_rehearse (Transport.call {} [] twice "sqrt" .null).run secondTime
  have hsome : ((Transport.call {} [] twice "sqrt" .null).run.rehearse
      secondTime).1.toOption.isSome = true := by decide +kernel
  obtain ⟨v, hv⟩ := Option.isSome_iff_exists.1 hsome
  rw [eq_ok_of_toOption hv] at hrun
  obtain ⟨_, _, -, -, hvalue, -⟩ := call_of_polling rfl hrun
  exact ⟨_, v, hrun, hvalue v rfl⟩

end FeltRelay.Transport
