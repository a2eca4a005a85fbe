import FeltRelay.Document
import FeltRelay.Journal
import FeltRelay.Network.Request

/-!
# Processes

A process is an activity that asks its surroundings questions, one after the other, and goes on with
the answers until it has a result. It holds no effect itself: what it does depends on who answers.
-/

namespace FeltRelay

open FeltRelay.Network

inductive Question where
  /-- To exchange a request for a reply. -/
  | send (request : Request)
  /-- How many seconds have passed since some moment. -/
  | clock
  /-- To wait. -/
  | sleep (seconds : Float)
  /-- To note an entry in the journal. -/
  | note (entry : Journal.Record)
  /-- A name for a trace that was not used before. -/
  | newTrace
  /-- The time as it is written in the journal. -/
  | timestamp
  /-- The contents of a file. -/
  | readFile (path : String)
  /-- To make a directory with those above it. -/
  | makeDirectory (path : String)
  /-- To write a text into a file. -/
  | writeFile (path text : String)
  /-- All text of the standard input. -/
  | readInput
  /-- To print a text. -/
  | print (text : String)
  /-- To print a line for the one who watches. -/
  | report (line : String)

/-- What the answer to a question is. -/
abbrev Question.Answer : Question → Type
  | send _ => Reply
  | clock => Float
  | newTrace | timestamp | readInput => String
  | readFile _ => Contents
  | makeDirectory _ | writeFile _ _ => Bool
  | sleep _ | note _ | print _ | report _ => Unit

inductive Process (α : Type) where
  | done (result : α)
  | ask (question : Question) (next : question.Answer → Process α)

namespace Process

variable {α β γ : Type}

protected def bind (p : Process α) (f : α → Process β) : Process β :=
  match p with
  | done a => f a
  | ask q next => ask q fun answer => (next answer).bind f

instance : Monad Process where
  pure := done
  bind := Process.bind

def once (q : Question) : Process q.Answer := ask q done

@[simp] theorem pure_def (a : α) : (pure a : Process α) = done a := rfl

@[simp] theorem done_bind (a : α) (f : α → Process β) : done a >>= f = f a := rfl

@[simp] theorem ask_bind (q : Question) (next : q.Answer → Process α) (f : α → Process β) :
    ask q next >>= f = ask q fun answer => next answer >>= f := rfl

theorem bind_done (p : Process α) : p >>= done = p := by
  induction p with
  | done a => rfl
  | ask q next ih =>
    rw [ask_bind]
    exact congrArg (ask q) (funext ih)

theorem bind_assoc (p : Process α) (f : α → Process β) (g : β → Process γ) :
    p >>= f >>= g = p >>= fun a => f a >>= g := by
  induction p with
  | done a => rfl
  | ask q next ih =>
    simp only [ask_bind]
    exact congrArg (ask q) (funext ih)

instance : LawfulMonad Process := LawfulMonad.mk' Process
  bind_done (fun _ _ => rfl) bind_assoc

/-- A process whose journal entries are printed, as a journal says. -/
def journaled (j : Journal) : Process α → Process α
  | done a => done a
  | ask (.note r) next =>
    ask .timestamp fun time =>
      match j.line? time r with
      | some line => ask (.report line) fun u => (next u).journaled j
      | none => (next ()).journaled j
  | ask q next => ask q fun answer => (next answer).journaled j

end Process

abbrev Activity := ExceptT Problem Process

namespace Activity

def once (q : Question) : Activity q.Answer := liftM (Process.once q)

def ofAttempt {α : Type} (a : Attempt α) : Activity α := ExceptT.mk (.done a)

def note (entry : Journal.Record) : Activity Unit := once (.note entry)

def fail {α : Type} (f : Failure) : Activity α := throw (.failure f)

end Activity

end FeltRelay
