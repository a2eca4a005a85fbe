import FeltRelay.Process.Rehearsal

/-!
# Runs of a process

A run is the log of the questions that a process asks, each with the answer that it gets, and the
result that it ends with. Whoever answers, a process has a run; a rehearsal is one of them.
-/

namespace FeltRelay

open FeltRelay.Network

/-- A question and the answer to it. -/
structure Process.Step where
  question : Question
  answer : question.Answer

/-- The steps of a process in order. -/
abbrev Log := List Process.Step

namespace Process

variable {α β : Type}

/-- A process takes the steps of a log and ends with a result. -/
inductive Runs : Process α → Log → α → Prop
  | done (a : α) : Runs (.done a) [] a
  | ask {q : Question} {next : q.Answer → Process α} {answer : q.Answer} {log : Log} {a : α}
      (h : Runs (next answer) log a) : Runs (.ask q next) (⟨q, answer⟩ :: log) a

theorem runs_done_iff {a b : α} {log : Log} : Runs (.done a) log b ↔ log = [] ∧ b = a := by
  constructor
  · intro h
    cases h
    exact ⟨rfl, rfl⟩
  · rintro ⟨rfl, rfl⟩
    exact .done b

/-- One process after another takes the steps of both. -/
theorem runs_bind_iff {p : Process α} {f : α → Process β} {log : Log} {b : β} :
    Runs (p >>= f) log b ↔ ∃ l₁ l₂ a, log = l₁ ++ l₂ ∧ Runs p l₁ a ∧ Runs (f a) l₂ b := by
  constructor
  · intro h
    induction p generalizing log with
    | done a => exact ⟨[], log, a, rfl, .done a, h⟩
    | ask q next ih =>
      rw [ask_bind] at h
      cases h with
      | ask h =>
        obtain ⟨l₁, l₂, a, rfl, h₁, h₂⟩ := ih _ h
        exact ⟨_ :: l₁, l₂, a, rfl, .ask h₁, h₂⟩
  · rintro ⟨l₁, l₂, a, rfl, h₁, h₂⟩
    induction h₁ with
    | done a => exact h₂
    | ask _ ih => exact .ask (ih h₂)

theorem runs_once_bind_iff {q : Question} {f : q.Answer → Process β} {log : Log} {b : β} :
    Runs (once q >>= f) log b ↔ ∃ answer rest, log = ⟨q, answer⟩ :: rest ∧
      Runs (f answer) rest b := by
  constructor
  · intro h
    cases h with
    | ask h => exact ⟨_, _, rfl, h⟩
  · rintro ⟨answer, rest, rfl, h⟩
    exact .ask h

/-- The steps of a process in prepared surroundings. -/
def logOf : Process α → Rehearsal → Log
  | done _, _ => []
  | ask q next, r => ⟨q, (r.answer q).1⟩ :: (next (r.answer q).1).logOf (r.answer q).2

theorem runs_rehearse (p : Process α) (r : Rehearsal) : Runs p (p.logOf r) (p.rehearse r).1 := by
  induction p generalizing r with
  | done a => exact .done a
  | ask q next ih => exact .ask (ih (r.answer q).1 (r.answer q).2)

end Process

/-! ### Activities -/

namespace Activity

variable {α β : Type} {log : Log}

/-- An activity goes on only if it was not stopped before. -/
theorem runs_bind_iff {x : Activity α} {f : α → Activity β} {r : Except Problem β} :
    (x >>= f).run.Runs log r ↔
      (∃ l₁ l₂ a, log = l₁ ++ l₂ ∧ x.run.Runs l₁ (.ok a) ∧ (f a).run.Runs l₂ r) ∨
        ∃ p, r = .error p ∧ x.run.Runs log (.error p) := by
  rw [ExceptT.run_bind, Process.runs_bind_iff]
  constructor
  · rintro ⟨l₁, l₂, a | a, rfl, h₁, h₂⟩
    · obtain ⟨rfl, rfl⟩ := Process.runs_done_iff.1 h₂
      rw [List.append_nil]
      exact .inr ⟨a, rfl, h₁⟩
    · exact .inl ⟨l₁, l₂, a, rfl, h₁, h₂⟩
  · rintro (⟨l₁, l₂, a, rfl, h₁, h₂⟩ | ⟨p, rfl, h⟩)
    · exact ⟨l₁, l₂, .ok a, rfl, h₁, h₂⟩
    · exact ⟨log, [], .error p, (List.append_nil _).symm, h, .done _⟩

theorem runs_once_iff {q : Question} {r : Except Problem q.Answer} :
    (once q).run.Runs log r ↔ ∃ answer, log = [⟨q, answer⟩] ∧ r = .ok answer := by
  constructor
  · intro h
    cases h with
    | ask h =>
      obtain ⟨rfl, rfl⟩ := Process.runs_done_iff.1 h
      exact ⟨_, rfl, rfl⟩
  · rintro ⟨answer, rfl, rfl⟩
    exact .ask (.done _)

theorem runs_ofAttempt_iff {a r : Attempt α} : (ofAttempt a).run.Runs log r ↔ log = [] ∧ r = a :=
  Process.runs_done_iff

theorem runs_fail_iff {f : Failure} {r : Except Problem α} :
    (fail f : Activity α).run.Runs log r ↔ log = [] ∧ r = .error (.failure f) :=
  Process.runs_done_iff

theorem runs_pure_iff {a : α} {r : Except Problem α} :
    (pure a : Activity α).run.Runs log r ↔ log = [] ∧ r = .ok a :=
  Process.runs_done_iff

/-- What follows a question goes on with its answer. -/
theorem runs_once_bind_iff {q : Question} {f : q.Answer → Activity β} {r : Except Problem β} :
    (once q >>= f).run.Runs log r ↔ ∃ answer rest, log = ⟨q, answer⟩ :: rest ∧
      (f answer).run.Runs rest r := by
  rw [runs_bind_iff]
  constructor
  · rintro (⟨l₁, l₂, a, rfl, h₁, h₂⟩ | ⟨p, rfl, h⟩)
    · obtain ⟨answer, rfl, ha⟩ := runs_once_iff.1 h₁
      cases ha
      exact ⟨a, l₂, rfl, h₂⟩
    · obtain ⟨answer, -, ha⟩ := runs_once_iff.1 h
      cases ha
  · rintro ⟨answer, rest, rfl, h⟩
    exact .inl ⟨[_], rest, answer, rfl, runs_once_iff.2 ⟨answer, rfl, rfl⟩, h⟩

end Activity

/-! ### What was sent -/

namespace Log

/-- A request and the reply to it, if a step is an exchange. -/
def exchange? : Process.Step → Option (Request × Reply)
  | ⟨.send request, reply⟩ => some (request, reply)
  | _ => none

/-- The exchanges of a log in order. -/
def exchanges (log : Log) : List (Request × Reply) := log.filterMap exchange?

/-- The requests of a log in order. -/
def requests (log : Log) : List Request := log.exchanges.map Prod.fst

@[simp] theorem exchanges_cons (s : Process.Step) (log : Log) :
    exchanges (s :: log) = (exchange? s).toList ++ exchanges log := by
  rw [exchanges, List.filterMap_cons]
  cases exchange? s <;> rfl

@[simp] theorem exchanges_append (l₁ l₂ : Log) :
    exchanges (l₁ ++ l₂) = exchanges l₁ ++ exchanges l₂ :=
  List.filterMap_append

end Log

end FeltRelay
