import FeltRelay.Proofs.Schema.Definitions
import FeltRelay.Proofs.Schema.Definitions.Brackets
import FeltRelay.Proofs.Schema.Definitions.Token
import Mathlib.Data.List.Induction

/-!
# Declarations that tokens show

Messages, enumerations and fields can be told from the tokens of a text without its grammar: from
the brackets that are open and the tokens since the last bracket or semicolon. What a reading
declares is what its tokens show but for what its skipped statements show, if the skipped statements
are balanced (`IsFile.shown_perm`).
-/

namespace FeltRelay.Schema.Definitions

/-- A declaration, by the names that it has in the model. -/
inductive Item where
  | message (name : String)
  | field (message name : String)
  | enum (name : String)
deriving DecidableEq, Repr

/-! ### Scanning tokens -/

/-- The name behind a keyword, when these two were read last. -/
def named (keyword : String) : List Token → Option String
  | name :: word :: _ =>
    if word.text = keyword ∧ name.kind = .name then some name.text else none
  | _ => none

/-- A word that a field can begin with, or any name behind a label. -/
def IsTypeWord (type : Token) (before : List Token) : Prop :=
  type.kind = .name ∧ ((before.head?.bind (Label.ofWord? ·.text)).isSome ∨
    (type.text ∉ bodyWords ∧ Label.ofWord? type.text = none))

instance (type : Token) (before : List Token) : Decidable (IsTypeWord type before) :=
  inferInstanceAs (Decidable (_ ∧ _))

/-- The name of a field, when a type, the name and an equals sign were read last. -/
def fieldNamed : List Token → Option String
  | equals :: name :: type :: before =>
    if equals.text = "=" ∧ name.kind = .name ∧ IsTypeWord type before then some name.text else none
  | _ => none

/-- The open brackets, each with the name of the message whose body it opens, and the tokens since
the last bracket or semicolon. Both have the last first. -/
structure Scan where
  frames : List (Option String)
  recent : List Token

/-- The scope of open brackets that all open bodies of messages. -/
def scopeOf : List (Option String) → Option (List String)
  | [] => some []
  | some name :: frames => (scopeOf frames).map (· ++ [name])
  | none :: _ => none

namespace Scan

def step (s : Scan) (t : Token) : Scan :=
  if t.opens?.isSome then
    ⟨(if t.text = "\x7b" then named "message" s.recent else none) :: s.frames, []⟩
  else if t.closes?.isSome then ⟨s.frames.tail, []⟩
  else if t.text = ";" then ⟨s.frames, []⟩
  else ⟨s.frames, t :: s.recent⟩

/-- What a token completes within a scope. -/
def completes (scope : List String) (recent : List Token) (t : Token) : List Item :=
  if t.text = "\x7b" then
    ((named "message" recent).map fun name =>
      .message (flattened (dotted (scope ++ [name])))).toList ++
      ((named "enum" recent).map fun name => .enum (flattened (dotted (scope ++ [name])))).toList
  else if t.kind = .number ∧ scope ≠ [] then
    ((fieldNamed recent).map (.field (flattened (dotted scope)))).toList
  else []

def shows (s : Scan) (t : Token) : List Item :=
  match scopeOf s.frames with
  | some scope => completes scope s.recent t
  | none => []

def after (s : Scan) (ts : List Token) : Scan := ts.foldl step s

/-- What tokens show, outside all brackets but those of messages. -/
def shown : Scan → List Token → List Item
  | _, [] => []
  | s, t :: ts => s.shows t ++ (s.step t).shown ts

variable {s : Scan} {t : Token} {us vs : List Token}

theorem after_append : s.after (us ++ vs) = (s.after us).after vs := List.foldl_append ..

theorem shown_append : s.shown (us ++ vs) = s.shown us ++ (s.after us).shown vs := by
  induction us generalizing s with
  | nil => rfl
  | cons t us ih =>
    rw [List.cons_append, shown, shown, ih, List.append_assoc]
    rfl

end Scan

/-! ### Brackets and words -/

/-- Only marks are written as marks. -/
def Token.Clean (t : Token) : Prop := ∀ c ∈ marks, t.text.toList = [c] → t.kind = .mark

theorem clean_of_tokenize {text : String} {ts : List Token} (h : tokenize text = .ok ts) :
    ∀ t ∈ ts, t.Clean :=
  fun _ ht _ hc htext => mark_of_mem_tokenize h ht hc htext

/-- The brackets and the semicolon. -/
def stops : List String := ["(", ")", "[", "]", "\x7b", "\x7d", ";"]

section

variable {t : Token} {word : String}

theorem mark_of_stop (hclean : t.Clean) (h : t.text ∈ stops) : t.kind = .mark := by
  have hall : stops.all (fun s => marks.any fun c => s.toList = [c]) = true := by decide
  obtain ⟨c, hc, htext⟩ := List.any_eq_true.1 (List.all_eq_true.1 hall t.text h)
  exact hclean c hc (of_decide_eq_true htext)

theorem not_stop_of_kind (hclean : t.Clean) (h : t.kind ≠ .mark) : t.text ∉ stops :=
  fun hmem => h (mark_of_stop hclean hmem)

theorem opens?_eq_none (h : t.text ∉ stops) : t.opens? = none := by
  simp only [stops, List.mem_cons, List.not_mem_nil, or_false, not_or] at h
  simp [Token.opens?, h]

theorem closes?_eq_none (h : t.text ∉ stops) : t.closes? = none := by
  simp only [stops, List.mem_cons, List.not_mem_nil, or_false, not_or] at h
  simp [Token.closes?, h]

theorem balanced_singleton (hopen : t.opens? = none) (hclose : t.closes? = none) :
    Balanced [t] := by
  rw [Balanced, unwind_cons, Token.unwind_eq_some_iff.2 (.inr (.inl ⟨hopen, hclose, rfl⟩))]
  rfl

theorem balanced_word (h : t.text ∉ stops) : Balanced [t] :=
  balanced_singleton (opens?_eq_none h) (closes?_eq_none h)

theorem balanced_semicolon (h : t.text = ";") : Balanced [t] :=
  balanced_singleton (by simp [Token.opens?, h]) (by simp [Token.closes?, h])

/-- Brackets of one kind around what is balanced. -/
theorem Balanced.wrap {opening closing : Token} {b : Bracket} {us : List Token} (h : Balanced us)
    (hopen : opening.opens? = some b) (hfirst : closing.opens? = none)
    (hclose : closing.closes? = some b) : Balanced (opening :: (us ++ [closing])) := by
  rw [Balanced, unwind_cons, Token.unwind_eq_some_iff.2 (.inl ⟨b, hopen, rfl⟩), Option.bind_some,
    unwind_append, h.unwind, Option.bind_some, unwind_cons,
    Token.unwind_eq_some_iff.2 (.inr (.inr ⟨b, hfirst, hclose, rfl⟩))]
  rfl

end

/-! ### Scopes and brackets -/

section

variable {F fr : List (Option String)} {s : Scan} {t : Token} {us vs : List Token}
  {stack stack' : List Bracket}

theorem scopeOf_append (h : scopeOf F = none) (fr : List (Option String)) :
    scopeOf (fr ++ F) = none := by
  induction fr with
  | nil => exact h
  | cons f fr ih =>
    cases f with
    | none => rfl
    | some name => rw [List.cons_append, scopeOf, ih, Option.map_none]

theorem Scan.shows_eq_nil (h : scopeOf s.frames = none) : s.shows t = [] := by
  rw [Scan.shows, h]

theorem Scan.frames_step_of_opens {b : Bracket} (h : t.opens? = some b) :
    ∃ f, (s.step t).frames = f :: s.frames := by
  rw [Scan.step, h]
  exact ⟨_, rfl⟩

theorem Scan.frames_step_of_closes {b : Bracket} (hopen : t.opens? = none)
    (h : t.closes? = some b) : (s.step t).frames = s.frames.tail := by
  rw [Scan.step, hopen, h]
  rfl

theorem Scan.frames_step (hopen : t.opens? = none) (hclose : t.closes? = none) :
    (s.step t).frames = s.frames := by
  rw [Scan.step, hopen, hclose]
  simp only [Option.isSome_none, Bool.false_eq_true, if_false]
  split <;> rfl

/-- A token opens and closes frames as it opens and closes brackets. -/
theorem Scan.frames_step_of_unwind (h : t.unwind stack = some stack') (hs : s.frames = fr ++ F)
    (hlen : fr.length = stack.length) :
    ∃ fr', (s.step t).frames = fr' ++ F ∧ fr'.length = stack'.length := by
  obtain ⟨b, hopen, rfl⟩ | ⟨hopen, hclose, rfl⟩ | ⟨b, hopen, hclose, rfl⟩ :=
    Token.unwind_eq_some_iff.1 h
  · obtain ⟨f, hf⟩ := Scan.frames_step_of_opens (s := s) hopen
    exact ⟨f :: fr, by rw [hf, hs, List.cons_append], by simp [hlen]⟩
  · exact ⟨fr, by rw [Scan.frames_step hopen hclose, hs], hlen⟩
  · obtain ⟨f, fr, rfl⟩ := List.exists_cons_of_length_eq_add_one hlen
    refine ⟨fr, ?_, Nat.succ.inj hlen⟩
    rw [Scan.frames_step_of_closes hopen hclose, hs, List.cons_append, List.tail_cons]

/-- Brackets that are opened and closed go on top of those that were open. As long as one of these
does not belong to a message, nothing is shown. -/
theorem Scan.frames_of_unwind (h : unwind stack us = some stack') (hs : s.frames = fr ++ F)
    (hlen : fr.length = stack.length) :
    (∃ fr', (s.after us).frames = fr' ++ F ∧ fr'.length = stack'.length) ∧
      (scopeOf F = none → s.shown us = []) := by
  induction us generalizing s stack fr with
  | nil =>
    cases h
    exact ⟨⟨fr, hs, hlen⟩, fun _ => rfl⟩
  | cons t us ih =>
    rw [unwind_cons] at h
    obtain ⟨mid, ht, hus⟩ := Option.bind_eq_some_iff.1 h
    obtain ⟨fr', hfr', hlen'⟩ := Scan.frames_step_of_unwind ht hs hlen
    obtain ⟨hafter, hshown⟩ := ih hus hfr' hlen'
    refine ⟨hafter, fun hF => ?_⟩
    have hframes : scopeOf s.frames = none := by
      rw [hs]
      exact scopeOf_append hF fr
    rw [Scan.shown, Scan.shows_eq_nil hframes, hshown hF]
    rfl

theorem Scan.frames_of_balanced (h : Balanced us) : (s.after us).frames = s.frames := by
  have hs : s.frames = [] ++ s.frames := rfl
  obtain ⟨⟨fr, hframes, hlen⟩, -⟩ := Scan.frames_of_unwind h hs rfl
  rw [hframes, List.length_eq_zero_iff.1 hlen, List.nil_append]

theorem Scan.shown_of_balanced (h : Balanced us) (hs : scopeOf s.frames = none) :
    s.shown us = [] := by
  have hframes : s.frames = [] ++ s.frames := rfl
  exact (Scan.frames_of_unwind h hframes rfl).2 hs

end

/-! ### Balanced parts of a reading -/

section

variable {us : List Token} {skips : List Skipped}

theorem IsOptions.balanced (h : IsOptions us skips) (hb : ∀ s ∈ skips, Balanced s.tokens) :
    Balanced us := by
  cases h with
  | absent => rfl
  | @present opening closing us hopen hus hclose =>
    have hinner : Balanced us := hb _ (List.mem_singleton_self _)
    exact hinner.wrap (b := .square) (by simp [Token.opens?, hopen])
      (by simp [Token.opens?, hclose]) (by simp [Token.closes?, hclose])

theorem IsNumbered.balanced {n : Int} (h : IsNumbered us n skips) (hclean : ∀ t ∈ us, t.Clean)
    (hb : ∀ s ∈ skips, Balanced s.tokens) : Balanced us := by
  obtain @⟨equals, number, semicolon, us, skips, hequals, hnumber, hoptions, hend⟩ := h
  have hfirst : Balanced [equals] := balanced_word (by rw [hequals]; decide)
  have hsecond : Balanced [number] :=
    balanced_word (not_stop_of_kind (hclean number (by simp)) (by simp [hnumber]))
  exact hfirst.append (hsecond.append ((hoptions.balanced hb).append (balanced_semicolon hend)))

/-- What ends with a closing brace and is balanced before it. -/
def Enclosed (us : List Token) : Prop :=
  ∃ vs closing, us = vs ++ [closing] ∧ closing.text = "\x7d" ∧ Balanced vs

theorem Enclosed.close {t : Token} (h : t.text = "\x7d") : Enclosed [t] := ⟨[], t, rfl, h, rfl⟩

theorem Enclosed.append {vs : List Token} (hus : Balanced us) (hvs : Enclosed vs) :
    Enclosed (us ++ vs) := by
  obtain ⟨ws, closing, rfl, hclose, hws⟩ := hvs
  exact ⟨us ++ ws, closing, (List.append_assoc ..).symm, hclose, hus.append hws⟩

theorem Enclosed.balanced (h : Enclosed us) {opening : Token} (hopen : opening.text = "\x7b") :
    Balanced (opening :: us) := by
  obtain ⟨vs, closing, rfl, hclose, hvs⟩ := h
  exact hvs.wrap (b := .curly) (by simp [Token.opens?, hopen]) (by simp [Token.opens?, hclose])
    (by simp [Token.closes?, hclose])

theorem IsValues.enclosed {values : List (String × Int)} (h : IsValues us values skips)
    (hclean : ∀ t ∈ us, t.Clean) (hb : ∀ s ∈ skips, Balanced s.tokens) : Enclosed us := by
  induction h with
  | close hclose => exact .close hclose
  | @skip t us vs values skips hword hskip rest ih =>
    obtain ⟨hstatement, hb⟩ := List.forall_mem_cons.1 hb
    rw [← List.cons_append] at hclean ⊢
    exact .append hstatement (ih (List.forall_mem_append.1 hclean).2 hb)
  | @empty t vs values skips hempty rest ih =>
    exact .append (balanced_semicolon hempty) (ih (List.forall_mem_cons.1 hclean).2 hb)
  | @value t n us vs values skips skips' hname hnumber rest ih =>
    obtain ⟨ht, hclean⟩ := List.forall_mem_cons.1 hclean
    obtain ⟨hus, hvs⟩ := List.forall_mem_append.1 hclean
    obtain ⟨hb, hb'⟩ := List.forall_mem_append.1 hb
    have hfirst : Balanced [t] := balanced_word (not_stop_of_kind ht (by simp [hname]))
    exact .append hfirst (.append (hnumber.balanced hus hb) (ih hvs hb'))

theorem IsStatements.enclosed (h : IsStatements us skips)
    (hb : ∀ s ∈ skips, Balanced s.tokens) : Enclosed us := by
  induction h with
  | close hclose => exact .close hclose
  | @skip us vs skips hskip rest ih =>
    obtain ⟨hstatement, hb⟩ := List.forall_mem_cons.1 hb
    exact .append hstatement (ih hb)

theorem IsMethodType.balanced {name : String} (h : IsMethodType us name)
    (hclean : ∀ t ∈ us, t.Clean) : Balanced us := by
  obtain @⟨opening, t, closing, hopen, hname, hclose⟩ := h
  have ht : Balanced [t] :=
    balanced_word (not_stop_of_kind (hclean t (by simp)) (by simp [hname]))
  exact ht.wrap (b := .round) (by simp [Token.opens?, hopen]) (by simp [Token.opens?, hclose])
    (by simp [Token.closes?, hclose])

theorem IsMethodEnd.balanced (h : IsMethodEnd us skips) (hb : ∀ s ∈ skips, Balanced s.tokens) :
    Balanced us := by
  cases h with
  | semicolon hend => exact balanced_semicolon hend
  | braces hopen hstatements => exact (hstatements.enclosed hb).balanced hopen

theorem IsMethod.balanced {m : MethodDecl} (h : IsMethod us m skips) (hclean : ∀ t ∈ us, t.Clean)
    (hb : ∀ s ∈ skips, Balanced s.tokens) : Balanced us := by
  obtain @⟨name, returns, us, vs, ws, request, response, skips, hname, hrequest, hreturns,
    hresponse, hend⟩ := h
  simp only [List.forall_mem_cons, List.forall_mem_append] at hclean
  obtain ⟨hcname, hcus, hcreturns, hcvs, hcws⟩ := hclean
  have hfirst : Balanced [name] := balanced_word (not_stop_of_kind hcname (by simp [hname]))
  have hmiddle : Balanced [returns] := balanced_word (by rw [hreturns]; decide)
  exact hfirst.append ((hrequest.balanced hcus).append
    (hmiddle.append ((hresponse.balanced hcvs).append (hend.balanced hb))))

theorem IsMethods.enclosed {methods : List MethodDecl} (h : IsMethods us methods skips)
    (hclean : ∀ t ∈ us, t.Clean) (hb : ∀ s ∈ skips, Balanced s.tokens) : Enclosed us := by
  induction h with
  | close hclose => exact .close hclose
  | @skip t us vs methods skips hword hskip rest ih =>
    obtain ⟨hstatement, hb⟩ := List.forall_mem_cons.1 hb
    rw [← List.cons_append] at hclean ⊢
    exact .append hstatement (ih (List.forall_mem_append.1 hclean).2 hb)
  | @empty t vs methods skips hempty rest ih =>
    exact .append (balanced_semicolon hempty) (ih (List.forall_mem_cons.1 hclean).2 hb)
  | @method t us vs m methods skips skips' hword hmethod rest ih =>
    obtain ⟨ht, hclean⟩ := List.forall_mem_cons.1 hclean
    obtain ⟨hus, hvs⟩ := List.forall_mem_append.1 hclean
    obtain ⟨hb, hb'⟩ := List.forall_mem_append.1 hb
    have hfirst : Balanced [t] := balanced_word (by rw [hword]; decide)
    exact .append hfirst (.append (hmethod.balanced hus hb) (ih hvs hb'))

end

/-! ### What a reading shows -/

/-- Some tokens lead from one place of a scan to another and show some items. -/
structure Scans (s : Scan) (us : List Token) (s' : Scan) (items : List Item) : Prop where
  after : s.after us = s'
  shown : s.shown us = items

namespace Scans

variable {s s' s'' : Scan} {us vs : List Token} {items items' : List Item}
  {F : List (Option String)} {recent : List Token} {t : Token}

theorem nil : Scans s [] s [] := ⟨rfl, rfl⟩

theorem append (h : Scans s us s' items) (h' : Scans s' vs s'' items') :
    Scans s (us ++ vs) s'' (items ++ items') :=
  ⟨by rw [Scan.after_append, h.after, h'.after],
    by rw [Scan.shown_append, h.shown, h.after, h'.shown]⟩

theorem single (hstep : s.step t = s') (hshows : s.shows t = items) : Scans s [t] s' items :=
  ⟨hstep, by rw [Scan.shown, Scan.shown, hshows, List.append_nil]⟩

theorem cons (h : Scans s [t] s' items) (h' : Scans s' vs s'' items') :
    Scans s (t :: vs) s'' (items ++ items') :=
  h.append h'

theorem shown_append (h : Scans s us s' items) (vs : List Token) :
    s.shown (us ++ vs) = items ++ s'.shown vs := by
  rw [Scan.shown_append, h.shown, h.after]

/-- Nothing but an opening brace and a number completes anything. -/
theorem shows_eq_nil (hbrace : t.text ≠ "\x7b")
    (hkind : t.kind = .number → fieldNamed s.recent = none) :
    s.shows t = [] := by
  unfold Scan.shows
  split
  · unfold Scan.completes
    rw [if_neg hbrace]
    split
    · rename_i hnumber
      rw [hkind hnumber.1]
      rfl
    · rfl
  · rfl

theorem word (hstop : t.text ∉ stops) (hkind : t.kind = .number → fieldNamed recent = none) :
    Scans ⟨F, recent⟩ [t] ⟨F, t :: recent⟩ [] := by
  refine single ?_ (shows_eq_nil (fun h => hstop (by rw [h]; decide)) hkind)
  rw [Scan.step, opens?_eq_none hstop, closes?_eq_none hstop, if_neg (by simp), if_neg (by simp),
    if_neg fun h => hstop (by rw [h]; decide)]

theorem name (hclean : t.Clean) (h : t.kind = .name) : Scans ⟨F, recent⟩ [t] ⟨F, t :: recent⟩ [] :=
  word (not_stop_of_kind hclean (by simp [h])) (by simp [h])

theorem semicolon (hclean : t.Clean) (h : t.text = ";") : Scans ⟨F, recent⟩ [t] ⟨F, []⟩ [] := by
  have hkind : t.kind = .mark := mark_of_stop hclean (by rw [h]; decide)
  refine single ?_ (shows_eq_nil (by simp [h]) (by simp [hkind]))
  simp [Scan.step, Token.opens?, Token.closes?, h]

theorem close (hclean : t.Clean) (h : t.text = "\x7d") :
    Scans ⟨F, recent⟩ [t] ⟨F.tail, []⟩ [] := by
  have hkind : t.kind = .mark := mark_of_stop hclean (by rw [h]; decide)
  refine single ?_ (shows_eq_nil (by simp [h]) (by simp [hkind]))
  simp [Scan.step, Token.opens?, Token.closes?, h]

/-- Inside a bracket that is no message's nothing is shown up to its end. -/
theorem enclosed {closing : Token} {b : Bracket} (hvs : Balanced vs) (hopen : closing.opens? = none)
    (hclose : closing.closes? = some b) :
    Scans ⟨none :: F, recent⟩ (vs ++ [closing]) ⟨F, []⟩ [] := by
  have hframes := Scan.frames_of_balanced (s := ⟨none :: F, recent⟩) hvs
  have hshown := Scan.shown_of_balanced (s := ⟨none :: F, recent⟩) hvs rfl
  have hinner : Scans ⟨none :: F, recent⟩ vs ((⟨none :: F, recent⟩ : Scan).after vs) [] :=
    ⟨rfl, hshown⟩
  refine hinner.append (single ?_ (Scan.shows_eq_nil (by rw [hframes]; rfl)))
  rw [Scan.step, hopen, hclose, if_neg (by simp), if_pos (by simp), hframes]
  rfl

end Scans

section

variable {F : List (Option String)} {recent us : List Token} {skips : List Skipped}
  {scope : List String}

theorem IsOptions.scans (h : IsOptions us skips) (hclean : ∀ t ∈ us, t.Clean)
    (hb : ∀ s ∈ skips, Balanced s.tokens) : ∃ recent', Scans ⟨F, recent⟩ us ⟨F, recent'⟩ [] := by
  cases h with
  | absent => exact ⟨recent, .nil⟩
  | @present opening closing us hopen hus hclose =>
    have hkind : opening.kind = .mark :=
      mark_of_stop (hclean opening (by simp)) (by rw [hopen]; decide)
    have hfirst : Scans ⟨F, recent⟩ [opening] ⟨none :: F, []⟩ [] := by
      refine .single ?_ (Scans.shows_eq_nil (by simp [hopen]) (by simp [hkind]))
      simp [Scan.step, Token.opens?, hopen]
    refine ⟨[], hfirst.append (.enclosed (b := .square) (hb _ (List.mem_singleton_self _)) ?_ ?_)⟩
    · simp [Token.opens?, hclose]
    · simp [Token.closes?, hclose]

/-- The number of a field completes it. -/
theorem IsNumbered.scans {n : Int} {name : String} (h : IsNumbered us n skips)
    (hclean : ∀ t ∈ us, t.Clean) (hb : ∀ s ∈ skips, Balanced s.tokens)
    (hscope : scopeOf F = some scope) (hne : scope ≠ [])
    (hname : ∀ equals : Token, equals.text = "=" → fieldNamed (equals :: recent) = some name) :
    Scans ⟨F, recent⟩ us ⟨F, []⟩ [.field (flattened (dotted scope)) name] := by
  obtain @⟨equals, number, semicolon, us, skips, hequals, hnumber, hoptions, hend⟩ := h
  simp only [List.forall_mem_cons, List.forall_mem_append] at hclean
  obtain ⟨hcequals, hcnumber, hcus, hcend, -⟩ := hclean
  have hkind : equals.kind = .mark := hcequals '=' (by decide) (by rw [hequals]; decide)
  have hstop : number.text ∉ stops := not_stop_of_kind hcnumber (by simp [hnumber])
  have hbrace : number.text ≠ "\x7b" := fun h => hstop (by rw [h]; decide)
  have hfirst : Scans ⟨F, recent⟩ [equals] ⟨F, equals :: recent⟩ [] :=
    .word (by rw [hequals]; decide) (by simp [hkind])
  have hsecond : Scans ⟨F, equals :: recent⟩ [number] ⟨F, number :: equals :: recent⟩
      [.field (flattened (dotted scope)) name] := by
    refine .single ?_ ?_
    · rw [Scan.step, opens?_eq_none hstop, closes?_eq_none hstop, if_neg (by simp),
        if_neg (by simp), if_neg fun h => hstop (by rw [h]; decide)]
    · rw [Scan.shows, hscope]
      dsimp only
      rw [Scan.completes, if_neg hbrace, if_pos ⟨hnumber, hne⟩, hname equals hequals]
      rfl
  have hthird : ∃ recent', Scans ⟨F, number :: equals :: recent⟩ us ⟨F, recent'⟩ [] :=
    hoptions.scans hcus hb
  obtain ⟨recent', hthird⟩ := hthird
  exact hfirst.cons (hsecond.cons (hthird.append (.semicolon hcend hend)))

theorem IsHead.scans {label : Option Label} {type : Token} (h : IsHead us label type)
    (hclean : ∀ t ∈ us, t.Clean) (hfirst : ∀ t ∈ us.head?, t.text ∉ bodyWords) :
    ∃ before, Scans ⟨F, []⟩ us ⟨F, type :: before⟩ [] ∧ IsTypeWord type before := by
  cases h with
  | plain hname hlabel =>
    exact ⟨[], .name (hclean type (by simp)) hname, hname, .inr ⟨hfirst type rfl, hlabel⟩⟩
  | @labelled t type label hlabel hname =>
    simp only [List.forall_mem_cons] at hclean
    obtain ⟨-, hctype, -⟩ := hclean
    have hword : t.text ∉ stops := by
      intro hmem
      have hall : ∀ s ∈ stops, Label.ofWord? s = none := by decide
      rw [hall _ hmem] at hlabel
      cases hlabel
    have hlead : Scans ⟨F, []⟩ [t] ⟨F, [t]⟩ [] := .word hword fun _ => rfl
    exact ⟨[t], hlead.append (.name hctype hname), hname, .inl (by simp [hlabel])⟩

theorem IsField.scans {f : FieldDecl} (h : IsField us f skips) (hclean : ∀ t ∈ us, t.Clean)
    (hb : ∀ s ∈ skips, Balanced s.tokens) (hfirst : ∀ t ∈ us.head?, t.text ∉ bodyWords)
    (hscope : scopeOf F = some scope) (hne : scope ≠ []) :
    Scans ⟨F, []⟩ us ⟨F, []⟩ [.field (flattened (dotted scope)) f.name] := by
  obtain @⟨us, vs, label, type, name, n, skips, hhead, hname, hnumber⟩ := h
  simp only [List.forall_mem_cons, List.forall_mem_append] at hclean
  obtain ⟨hcus, hcname, hcvs⟩ := hclean
  have hfirst' : ∀ t ∈ us.head?, t.text ∉ bodyWords := by
    intro t ht
    refine hfirst t ?_
    rw [List.head?_append, ht]
    rfl
  obtain ⟨before, hus, htype⟩ := hhead.scans (F := F) hcus hfirst'
  have hsecond : Scans ⟨F, type :: before⟩ [name] ⟨F, name :: type :: before⟩ [] :=
    .name hcname hname
  refine hus.append (hsecond.append (hnumber.scans hcvs hb hscope hne fun equals hequals => ?_))
  rw [fieldNamed, if_pos ⟨hequals, hname, htype⟩]

theorem IsEnum.scans {t : Token} {e : EnumDecl} (h : IsEnum scope us e skips) (ht : t.text = "enum")
    (hclean : ∀ t ∈ us, t.Clean) (hb : ∀ s ∈ skips, Balanced s.tokens)
    (hscope : scopeOf F = some scope) :
    Scans ⟨F, []⟩ (t :: us) ⟨F, []⟩ [.enum (flattened e.fullName)] := by
  obtain @⟨name, opening, us, values, skips, hname, hopen, hvalues⟩ := h
  simp only [List.forall_mem_cons] at hclean
  obtain ⟨hcname, -, hcus⟩ := hclean
  obtain ⟨vs, closing, rfl, hclose, hvs⟩ := hvalues.enclosed hcus hb
  have hfirst : Scans ⟨F, []⟩ [t] ⟨F, [t]⟩ [] := .word (by rw [ht]; decide) fun _ => rfl
  have hsecond : Scans ⟨F, [t]⟩ [name] ⟨F, [name, t]⟩ [] :=
    .name hcname hname
  have hthird : Scans ⟨F, [name, t]⟩ [opening] ⟨none :: F, []⟩
      [.enum (flattened (dotted (scope ++ [name.text])))] := by
    refine .single ?_ ?_
    · simp [Scan.step, Token.opens?, hopen, named, ht]
    · simp [Scan.shows, hscope, Scan.completes, hopen, named, ht, hname]
  refine hfirst.cons (hsecond.cons (hthird.cons (.enclosed (b := .curly) hvs ?_ ?_)))
  · simp [Token.opens?, hclose]
  · simp [Token.closes?, hclose]

end

/-! ### What is declared -/

def MessageDecl.items (m : MessageDecl) : List Item :=
  .message (flattened m.fullName) :: m.fields.map (.field (flattened m.fullName) ·.name)

def EnumDecl.item (e : EnumDecl) : Item := .enum (flattened e.fullName)

def Body.items (scope : List String) (body : Body) : List Item :=
  body.fields.map (.field (flattened (dotted scope)) ·.name) ++
    body.messages.flatMap MessageDecl.items ++ body.enums.map EnumDecl.item

def Declarations.items (d : Declarations) : List Item :=
  d.messages.flatMap MessageDecl.items ++ d.enums.map EnumDecl.item

theorem Body.items_enum (scope : List String) (body : Body) (e : EnumDecl) :
    ({ body with enums := e :: body.enums }.items scope).Perm (e.item :: body.items scope) :=
  List.perm_middle

theorem Body.items_nest (scope inside : List String) (body inner : Body) :
    ((body.nest inside inner).items scope).Perm
      (.message (flattened (dotted inside)) :: inner.items inside ++ body.items scope) := by
  rw [List.perm_iff_count]
  intro a
  simp only [Body.items, Body.nest, MessageDecl.items, MessageDecl.fullName, List.count_append,
    List.count_cons, List.flatMap_append, List.flatMap_cons, List.map_append, List.cons_append]
  omega

theorem Declarations.items_withMessage (d : Declarations) (name : String) (body : Body) :
    (d.withMessage name body).items.Perm
      (d.items ++ .message (flattened (dotted [name])) :: body.items [name]) := by
  rw [List.perm_iff_count]
  intro a
  simp only [Body.items, Declarations.items, Declarations.withMessage, MessageDecl.items,
    MessageDecl.fullName, List.count_append, List.count_cons, List.flatMap_append,
    List.flatMap_cons, List.map_append, List.cons_append]
  omega

/-- The place of a scan at the start of a statement. -/
def Scan.inside (scope : List String) : Scan := ⟨(scope.map some).reverse, []⟩

/-- What a skipped statement shows where it stands. -/
def Skipped.items (s : Skipped) : List Item :=
  match s.scope with
  | some scope => (Scan.inside scope).shown s.tokens
  | none => []

/-! Where no scope is, nothing is shown. -/

section

variable {us : List Token} {skips : List Skipped}

theorem Skipped.flatMap_items (h : ∀ s ∈ skips, s.scope = none) :
    skips.flatMap Skipped.items = [] := by
  rw [List.flatMap_eq_nil_iff]
  intro s hs
  rw [Skipped.items, h s hs]

theorem IsNumbered.unscoped {n : Int} (h : IsNumbered us n skips) :
    ∀ s ∈ skips, s.scope = none := by
  obtain ⟨-, -, hoptions, -⟩ := h
  cases hoptions <;> simp

theorem IsField.skipped_items {f : FieldDecl} (h : IsField us f skips) :
    skips.flatMap Skipped.items = [] := by
  obtain ⟨-, -, hnumber⟩ := h
  exact Skipped.flatMap_items hnumber.unscoped

theorem IsValues.unscoped {values : List (String × Int)} (h : IsValues us values skips) :
    ∀ s ∈ skips, s.scope = none := by
  induction h with
  | close _ => simp
  | skip _ _ _ ih => exact List.forall_mem_cons.2 ⟨rfl, ih⟩
  | empty _ _ ih => exact ih
  | value _ hnumber _ ih => exact List.forall_mem_append.2 ⟨hnumber.unscoped, ih⟩

theorem IsEnum.skipped_items {scope : List String} {e : EnumDecl} (h : IsEnum scope us e skips) :
    skips.flatMap Skipped.items = [] := by
  obtain ⟨-, -, hvalues⟩ := h
  exact Skipped.flatMap_items hvalues.unscoped

theorem IsStatements.unscoped (h : IsStatements us skips) : ∀ s ∈ skips, s.scope = none := by
  induction h with
  | close _ => simp
  | skip _ _ ih => exact List.forall_mem_cons.2 ⟨rfl, ih⟩

theorem IsMethods.unscoped {methods : List MethodDecl} (h : IsMethods us methods skips) :
    ∀ s ∈ skips, s.scope = none := by
  induction h with
  | close _ => simp
  | skip _ _ _ ih => exact List.forall_mem_cons.2 ⟨rfl, ih⟩
  | empty _ _ ih => exact ih
  | method _ hmethod _ ih =>
    obtain ⟨-, -, -, -, hend⟩ := hmethod
    refine List.forall_mem_append.2 ⟨?_, ih⟩
    cases hend with
    | semicolon _ => simp
    | braces _ hstatements => exact hstatements.unscoped

theorem IsService.skipped_items {service : ServiceDecl} (h : IsService us service skips) :
    skips.flatMap Skipped.items = [] := by
  obtain ⟨-, -, hmethods⟩ := h
  exact Skipped.flatMap_items hmethods.unscoped

end

/-! ### What a file shows -/

theorem scopeOf_inside (scope : List String) : scopeOf (Scan.inside scope).frames = some scope := by
  induction scope using List.reverseRecOn with
  | nil => rfl
  | append_singleton scope name ih =>
    simp only [Scan.inside, List.map_append, List.map_singleton, List.reverse_append,
      List.reverse_singleton, List.singleton_append] at ih ⊢
    rw [scopeOf, ih]
    rfl

theorem inside_append (scope : List String) (name : String) :
    Scan.inside (scope ++ [name]) = ⟨some name :: (Scan.inside scope).frames, []⟩ := by
  simp [Scan.inside]

section

variable {us vs : List Token} {skips : List Skipped} {scope : List String} {t : Token}

/-- A skipped statement comes back to where it stands. -/
theorem Skips.scans {s : Scan} (h : Skips 0 us) (hclean : ∀ t ∈ us, t.Clean)
    (hb : Balanced (t :: us)) : Scans s (t :: us) ⟨s.frames, []⟩ (s.shown (t :: us)) := by
  refine ⟨?_, rfl⟩
  obtain ⟨stmt, semicolon, rfl, hend, -⟩ := h.exists_end
  have hframes := Scan.frames_of_balanced (s := s) hb
  rw [← List.cons_append, Scan.after_append] at hframes ⊢
  have hlast : Scans (s.after (t :: stmt)) [semicolon] ⟨(s.after (t :: stmt)).frames, []⟩ [] :=
    .semicolon (hclean semicolon (by simp)) hend
  rw [hlast.after] at hframes ⊢
  rw [← hframes]

/-- The beginning of a message opens its body. -/
theorem scans_message {name opening : Token} (ht : t.text = "message") (hname : name.kind = .name)
    (hcname : name.Clean) (hopen : opening.text = "\x7b") :
    Scans (Scan.inside scope) [t, name, opening] (Scan.inside (scope ++ [name.text]))
      [.message (flattened (dotted (scope ++ [name.text])))] := by
  have hfirst : Scans (Scan.inside scope) [t] ⟨(Scan.inside scope).frames, [t]⟩ [] :=
    .word (by rw [ht]; decide) fun _ => rfl
  have hsecond : Scans ⟨(Scan.inside scope).frames, [t]⟩ [name]
      ⟨(Scan.inside scope).frames, [name, t]⟩ [] :=
    .name hcname hname
  refine hfirst.cons (hsecond.cons (.single ?_ ?_))
  · simp [Scan.step, Token.opens?, hopen, named, ht, hname, inside_append]
  · simp [Scan.shows, scopeOf_inside, Scan.completes, hopen, named, ht, hname]

theorem scans_version {equals name semicolon : Token} (ht : t.text = "syntax")
    (hequals : equals.text = "=") (hname : name.kind = .string) (hend : semicolon.text = ";")
    (hclean : ∀ u ∈ [equals, name, semicolon], u.Clean) :
    Scans (Scan.inside []) [t, equals, name, semicolon] (Scan.inside []) [] := by
  simp only [List.forall_mem_cons, List.not_mem_nil, false_imp_iff, implies_true, and_true]
    at hclean
  obtain ⟨hcequals, hcname, hcend⟩ := hclean
  have hkind : equals.kind = .mark := hcequals '=' (by decide) (by rw [hequals]; decide)
  have hfirst : Scans (Scan.inside []) [t] ⟨[], [t]⟩ [] :=
    .word (by rw [ht]; decide) fun _ => rfl
  have hsecond : Scans ⟨[], [t]⟩ [equals] ⟨[], [equals, t]⟩ [] :=
    .word (by rw [hequals]; decide) (by simp [hkind])
  have hthird : Scans ⟨[], [equals, t]⟩ [name] ⟨[], [name, equals, t]⟩ [] :=
    .word (not_stop_of_kind hcname (by simp [hname])) (by simp [hname])
  exact hfirst.cons (hsecond.cons (hthird.cons (.semicolon hcend hend)))

theorem scans_package {name semicolon : Token} (ht : t.text = "package")
    (hname : name.kind = .name) (hcname : name.Clean) (hend : semicolon.text = ";")
    (hcend : semicolon.Clean) :
    Scans (Scan.inside []) [t, name, semicolon] (Scan.inside []) [] := by
  have hfirst : Scans (Scan.inside []) [t] ⟨[], [t]⟩ [] :=
    .word (by rw [ht]; decide) fun _ => rfl
  have hsecond : Scans ⟨[], [t]⟩ [name] ⟨[], [name, t]⟩ [] := .name hcname hname
  exact hfirst.cons (hsecond.cons (.semicolon hcend hend))

theorem IsBody.shown_perm {body : Body} (h : IsBody scope us body skips) (hne : scope ≠ [])
    (hclean : ∀ t ∈ us, t.Clean) (hb : ∀ s ∈ skips, Balanced s.tokens) :
    ∃ items, Scans (Scan.inside scope) us ⟨(Scan.inside scope).frames.tail, []⟩ items ∧
      items.Perm (body.items scope ++ skips.flatMap Skipped.items) := by
  induction h with
  | close hclose => exact ⟨[], .close (hclean _ (by simp)) hclose, by simp [Body.items]⟩
  | @message scope t name opening us vs inner body skips skips' hword hname hopen hinner rest
      ihinner ih =>
    simp only [List.forall_mem_cons, List.forall_mem_append] at hclean
    obtain ⟨-, hcname, -, hcus, hcvs⟩ := hclean
    obtain ⟨hb, hb'⟩ := List.forall_mem_append.1 hb
    obtain ⟨items, hscans, hperm⟩ := ihinner (by simp) hcus hb
    obtain ⟨items', hscans', hperm'⟩ := ih hne hcvs hb'
    rw [inside_append, List.tail_cons, ← inside_append] at hscans
    refine ⟨_, (scans_message hword hname hcname hopen).append (hscans.append hscans'), ?_⟩
    rw [List.flatMap_append]
    have hnest := (Body.items_nest scope (scope ++ [name.text]) body inner).symm.append_right
      (skips.flatMap Skipped.items ++ skips'.flatMap Skipped.items)
    rw [List.cons_append, List.cons_append, List.append_assoc] at hnest
    refine List.Perm.trans (.cons _ ((hperm.append hperm').trans ?_)) hnest
    rw [List.append_assoc]
    exact (List.perm_append_comm_assoc ..).append_left _
  | @enum scope t us vs e body skips skips' hword henum rest ih =>
    simp only [List.forall_mem_cons, List.forall_mem_append] at hclean
    obtain ⟨-, hcus, hcvs⟩ := hclean
    obtain ⟨hb, hb'⟩ := List.forall_mem_append.1 hb
    obtain ⟨items, hscans, hperm⟩ := ih hne hcvs hb'
    have hfirst := henum.scans hword hcus hb (scopeOf_inside scope)
    refine ⟨_, hfirst.append hscans, ?_⟩
    rw [List.flatMap_append, henum.skipped_items, List.nil_append]
    exact (hperm.cons e.item).trans ((Body.items_enum scope body e).symm.append_right _)
  | @skip scope t us vs body skips hword hskip rest ih =>
    simp only [List.forall_mem_cons, List.forall_mem_append] at hclean
    obtain ⟨-, hcus, hcvs⟩ := hclean
    obtain ⟨hstatement, hb⟩ := List.forall_mem_cons.1 hb
    obtain ⟨items, hscans, hperm⟩ := ih hne hcvs hb
    have hfirst := hskip.scans (s := Scan.inside scope) hcus hstatement
    refine ⟨_, hfirst.append hscans, ?_⟩
    rw [List.flatMap_cons]
    exact (hperm.append_left _).trans (List.perm_append_comm_assoc ..)
  | @empty scope t vs body skips hempty rest ih =>
    obtain ⟨hct, hcvs⟩ := List.forall_mem_cons.1 hclean
    obtain ⟨items, hscans, hperm⟩ := ih hne hcvs hb
    exact ⟨_, (Scans.semicolon hct hempty).cons hscans, hperm⟩
  | @field scope t us vs f body skips skips' hword hfield rest ih =>
    rw [← List.cons_append] at hclean
    obtain ⟨hcus, hcvs⟩ := List.forall_mem_append.1 hclean
    obtain ⟨hb, hb'⟩ := List.forall_mem_append.1 hb
    obtain ⟨items, hscans, hperm⟩ := ih hne hcvs hb'
    have hfirst := hfield.scans hcus hb (by simpa using hword) (scopeOf_inside scope) hne
    refine ⟨_, hfirst.append hscans, ?_⟩
    rw [List.flatMap_append, hfield.skipped_items, List.nil_append]
    exact hperm.cons _

theorem IsService.scans {service : ServiceDecl} (h : IsService us service skips)
    (ht : t.text = "service") (hclean : ∀ t ∈ us, t.Clean)
    (hb : ∀ s ∈ skips, Balanced s.tokens) :
    Scans (Scan.inside []) (t :: us) (Scan.inside []) [] := by
  obtain @⟨name, opening, us, methods, skips, hname, hopen, hmethods⟩ := h
  simp only [List.forall_mem_cons] at hclean
  obtain ⟨hcname, -, hcus⟩ := hclean
  obtain ⟨vs, closing, rfl, hclose, hvs⟩ := hmethods.enclosed hcus hb
  have hfirst : Scans (Scan.inside []) [t] ⟨[], [t]⟩ [] :=
    .word (by rw [ht]; decide) fun _ => rfl
  have hsecond : Scans ⟨[], [t]⟩ [name] ⟨[], [name, t]⟩ [] :=
    .name hcname hname
  have hthird : Scans ⟨[], [name, t]⟩ [opening] ⟨[none], []⟩ [] := by
    refine .single ?_ ?_
    · simp [Scan.step, Token.opens?, hopen, named, ht]
    · simp [Scan.shows, scopeOf, Scan.completes, hopen, named, ht]
  refine hfirst.cons (hsecond.cons (hthird.cons (.enclosed (b := .curly) hvs ?_ ?_)))
  · simp [Token.opens?, hclose]
  · simp [Token.closes?, hclose]

/-- What a text declares is what its tokens show outside the skipped statements. -/
theorem IsFile.shown_perm {acc d : Declarations} (h : IsFile acc us d skips)
    (hclean : ∀ t ∈ us, t.Clean) (hb : ∀ s ∈ skips, Balanced s.tokens) :
    (acc.items ++ (Scan.inside []).shown us).Perm (d.items ++ skips.flatMap Skipped.items) := by
  induction h with
  | nil => exact List.Perm.refl _
  | @version acc d t equals name semicolon vs skips hword hequals hname hend rest ih =>
    obtain ⟨-, hclean⟩ := List.forall_mem_cons.1 hclean
    have hsplit : equals :: name :: semicolon :: vs = [equals, name, semicolon] ++ vs := rfl
    obtain ⟨hchead, hcvs⟩ := List.forall_mem_append.1 (hsplit ▸ hclean)
    have hfirst := scans_version hword hequals hname hend hchead
    rw [hsplit, ← List.cons_append, hfirst.shown_append, List.nil_append]
    exact ih hcvs hb
  | @package acc d t name semicolon vs skips hword hname hend rest ih =>
    simp only [List.forall_mem_cons] at hclean
    obtain ⟨-, hcname, hcend, hcvs⟩ := hclean
    have hfirst := scans_package hword hname hcname hend hcend
    have hsplit : t :: name :: semicolon :: vs = [t, name, semicolon] ++ vs := rfl
    rw [hsplit, hfirst.shown_append, List.nil_append]
    exact ih hcvs hb
  | @skip acc d t us vs skips hword hskip rest ih =>
    simp only [List.forall_mem_cons, List.forall_mem_append] at hclean
    obtain ⟨-, hcus, hcvs⟩ := hclean
    obtain ⟨hstatement, hb⟩ := List.forall_mem_cons.1 hb
    have hfirst : Scans (Scan.inside []) (t :: us) (Scan.inside [])
        ((Scan.inside []).shown (t :: us)) := hskip.scans hcus hstatement
    have hrest := ih hcvs hb
    rw [← List.cons_append, hfirst.shown_append, List.flatMap_cons]
    exact (List.perm_append_comm_assoc ..).trans
      ((hrest.append_left _).trans (List.perm_append_comm_assoc ..))
  | @message acc d t name opening us vs body skips skips' hword hname hopen hbody rest ih =>
    simp only [List.forall_mem_cons, List.forall_mem_append] at hclean
    obtain ⟨-, hcname, -, hcus, hcvs⟩ := hclean
    obtain ⟨hb, hb'⟩ := List.forall_mem_append.1 hb
    obtain ⟨items, hscans, hperm⟩ := hbody.shown_perm (by simp) hcus hb
    have hhead : Scans (Scan.inside []) [t, name, opening] (Scan.inside [name.text])
        [.message (flattened (dotted [name.text]))] := scans_message hword hname hcname hopen
    have hfirst : Scans (Scan.inside []) (t :: name :: opening :: us) (Scan.inside [])
        (.message (flattened (dotted [name.text])) :: items) := hhead.append hscans
    have hrest := ih hcvs hb'
    rw [← List.cons_append, ← List.cons_append, ← List.cons_append, hfirst.shown_append,
      List.flatMap_append]
    have hmade := acc.items_withMessage name.text body
    -- What the body shows goes to the front of the rest, but for what was skipped in it.
    rw [List.perm_iff_count] at hperm hrest hmade ⊢
    intro a
    have hcounted := hperm a
    have hcounted' := hrest a
    have hcounted'' := hmade a
    simp only [List.count_append, List.count_cons] at hcounted hcounted' hcounted'' ⊢
    omega
  | @enum acc d t us vs e skips skips' hword henum rest ih =>
    simp only [List.forall_mem_cons, List.forall_mem_append] at hclean
    obtain ⟨-, hcus, hcvs⟩ := hclean
    obtain ⟨hb, hb'⟩ := List.forall_mem_append.1 hb
    have hfirst : Scans (Scan.inside []) (t :: us) (Scan.inside []) [e.item] :=
      henum.scans hword hcus hb (scopeOf_inside [])
    have hrest := ih hcvs hb'
    have hmade : ({ acc with enums := acc.enums ++ [e] } : Declarations).items =
        acc.items ++ [e.item] := by simp [Declarations.items]
    rw [hmade, List.append_assoc] at hrest
    rwa [← List.cons_append, hfirst.shown_append, List.flatMap_append, henum.skipped_items]
  | @service acc d t us vs s skips skips' hword hservice rest ih =>
    simp only [List.forall_mem_cons, List.forall_mem_append] at hclean
    obtain ⟨-, hcus, hcvs⟩ := hclean
    obtain ⟨hb, hb'⟩ := List.forall_mem_append.1 hb
    have hfirst := hservice.scans hword hcus hb
    rw [← List.cons_append, hfirst.shown_append, List.flatMap_append, hservice.skipped_items]
    exact ih hcvs hb'
  | @empty acc d t vs skips hempty rest ih =>
    obtain ⟨hct, hcvs⟩ := List.forall_mem_cons.1 hclean
    have hfirst : Scans (Scan.inside []) [t] (Scan.inside []) [] := .semicolon hct hempty
    rw [← List.singleton_append, hfirst.shown_append, List.nil_append]
    exact ih hcvs hb

end

end FeltRelay.Schema.Definitions
