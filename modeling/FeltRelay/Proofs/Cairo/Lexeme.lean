import FeltRelay.Text.Letter
import Mathlib.Data.List.Induction

/-!
# The words and marks of a Cairo file

A lexer goes over the characters of a file one by one. Letters, numerals and underscores form words;
every other character is a mark by itself, except white space and what a comment holds.
-/

namespace FeltRelay.Cairo

open FeltRelay.Text

inductive Lexeme where
  | word (s : String)
  | mark (c : Char)
deriving DecidableEq, Repr

/-- What the lexer is in the middle of. -/
inductive Mode where
  | between
  | word (s : List Char)
  | slash
  | comment
deriving DecidableEq, Repr

def isWordChar (c : Char) : Bool := isAlphanumeric c || c = '_'

/-- What was read and not given yet. -/
def Mode.pending : Mode → List Lexeme
  | word s => [.word (String.ofList s)]
  | slash => [.mark '/']
  | between | comment => []

/-- The first character of something new. -/
def start (c : Char) : Mode × List Lexeme :=
  if isWordChar c then (.word [c], [])
  else if c.isWhitespace then (.between, [])
  else if c = '/' then (.slash, [])
  else (.between, [.mark c])

def step (mode : Mode) (c : Char) : Mode × List Lexeme :=
  let afresh := ((start c).1, mode.pending ++ (start c).2)
  match mode with
  | .between => afresh
  | .word s => if isWordChar c then (.word (s ++ [c]), []) else afresh
  | .slash => if c = '/' then (.comment, []) else afresh
  | .comment => (if c = '\n' then .between else .comment, [])

def run : Mode → List Char → Mode × List Lexeme
  | mode, [] => (mode, [])
  | mode, c :: rest =>
    let (next, ls) := step mode c
    let (last, ls') := run next rest
    (last, ls ++ ls')

/-- The lexemes of characters that are the last ones. -/
def runAll (mode : Mode) (s : List Char) : List Lexeme :=
  let (last, ls) := run mode s
  ls ++ last.pending

/-- The lexemes of a text. -/
def lexemes (text : String) : List Lexeme := runAll .between text.toList

/-! ### Parts of a text -/

variable {mode : Mode} {s t w : List Char} {ls ls' : List Lexeme} {c : Char}

@[simp] theorem runAll_nil (mode : Mode) : runAll mode [] = mode.pending := rfl

theorem runAll_cons (mode : Mode) (c : Char) (s : List Char) :
    runAll mode (c :: s) = (step mode c).2 ++ runAll (step mode c).1 s := by
  simp only [runAll, run, List.append_assoc]

/-- What is left of the text is read from where the lexer stands. -/
theorem runAll_append (mode : Mode) (s t : List Char) :
    runAll mode (s ++ t) = (run mode s).2 ++ runAll (run mode s).1 t := by
  induction s generalizing mode with
  | nil => rfl
  | cons c s ih =>
    rw [List.cons_append, runAll_cons, ih, run, ← List.append_assoc]

/-- A line feed in the end adds nothing. -/
theorem runAll_lineFeed (mode : Mode) : runAll mode ['\n'] = mode.pending := by
  cases mode with
  | word s =>
    rw [runAll_cons]
    rfl
  | _ => rfl

theorem runAll_append_lineFeeds (mode : Mode) {s t : List Char} (ht : ∀ c ∈ t, c = '\n') :
    runAll mode (s ++ t) = runAll mode s := by
  induction t using List.reverseRecOn with
  | nil => rw [List.append_nil]
  | append_singleton t c ih =>
    rw [ht c (by simp), ← List.append_assoc, runAll_append, runAll_lineFeed]
    exact ih fun d hd => ht d (by simp [hd])

/-! ### Words -/

/-- A text that is one word. -/
structure IsWord (w : List Char) : Prop where
  nonempty : w ≠ []
  chars : ∀ c ∈ w, isWordChar c = true

theorem IsWord.append {v : List Char} (h : IsWord v) (hw : ∀ c ∈ w, isWordChar c = true) :
    IsWord (v ++ w) := by
  refine ⟨by simp [h.nonempty], fun c hc => ?_⟩
  exact (List.mem_append.1 hc).elim (h.chars c) (hw c)

theorem run_word (acc : List Char) (hw : ∀ c ∈ w, isWordChar c = true) :
    run (.word acc) w = (.word (acc ++ w), []) := by
  induction w generalizing acc with
  | nil => rw [List.append_nil]; rfl
  | cons c w ih =>
    have hc := hw c (List.mem_cons_self ..)
    simp only [run, step, hc, if_true, ih _ fun d hd => hw d (List.mem_cons_of_mem _ hd),
      List.append_assoc, List.singleton_append, List.append_nil]

/-- A text that does not go on with a word. -/
def EndsWord (s : List Char) : Prop := ∀ c ∈ s.head?, isWordChar c = false

theorem runAll_word_of_endsWord {acc : List Char} (hs : EndsWord s) :
    runAll (.word acc) s = .word (String.ofList acc) :: runAll .between s := by
  cases s with
  | nil => rfl
  | cons c s =>
    have hc : isWordChar c = false := hs c rfl
    rw [runAll_cons, runAll_cons]
    simp [step, hc, Mode.pending]

/-- A word with what follows it. -/
theorem runAll_isWord (hw : IsWord w) (hs : EndsWord s) :
    runAll .between (w ++ s) = .word (String.ofList w) :: runAll .between s := by
  cases w with
  | nil => exact absurd rfl hw.nonempty
  | cons c w =>
    have hc := hw.chars c (List.mem_cons_self ..)
    have hrest := run_word [c] fun d hd => hw.chars d (List.mem_cons_of_mem _ hd)
    have hstep : step .between c = (.word [c], []) := by simp [step, start, hc, Mode.pending]
    rw [List.cons_append, runAll_cons, hstep, runAll_append, hrest]
    exact runAll_word_of_endsWord hs

/-- What a comment holds is left out, up to the end of its line. -/
theorem run_comment (hs : '\n' ∉ s) : run .comment s = (.comment, []) := by
  induction s with
  | nil => rfl
  | cons c s ih =>
    have hc : c ≠ '\n' := fun heq => hs (heq ▸ List.mem_cons_self ..)
    simp only [run, step, if_neg hc, ih fun hmem => hs (List.mem_cons_of_mem _ hmem),
      List.append_nil]

end FeltRelay.Cairo
