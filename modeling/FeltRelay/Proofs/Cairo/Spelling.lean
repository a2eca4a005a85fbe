import FeltRelay.Cairo.Declarations
import FeltRelay.Proofs.Cairo.Reader

/-!
# The lexemes of written declarations

What the lexer gives for each part of a file. The names in it are words, so their lexemes are read
with what follows in sight; everything else of a file is fixed.
-/

namespace FeltRelay.Cairo

open Lexeme

variable {s t : String} {ls ls' : List Lexeme}

/-- A text has these lexemes whatever follows. -/
def Lexes (s : String) (ls : List Lexeme) : Prop :=
  ∀ rest, runAll .between (s.toList ++ rest) = ls ++ runAll .between rest

/-- A text has these lexemes if no word goes on behind it. -/
def LexesBefore (s : String) (ls : List Lexeme) : Prop :=
  ∀ rest, EndsWord rest → runAll .between (s.toList ++ rest) = ls ++ runAll .between rest

-- The characters of a fixed text are taken from its literal, or else the kernel decodes them.
theorem lexes_of_run {cs : List Char} (h : run .between cs = (.between, ls)) :
    Lexes (String.ofList cs) ls := by
  intro rest
  rw [String.toList_ofList, runAll_append, h]

theorem lexesBefore_word (h : IsWord s.toList) : LexesBefore s [word s] := by
  intro rest hrest
  rw [runAll_isWord h hrest, String.ofList_toList]
  rfl

theorem Lexes.append (h : Lexes s ls) (h' : Lexes t ls') : Lexes (s ++ t) (ls ++ ls') := by
  intro rest
  rw [String.toList_append, List.append_assoc, h, h', List.append_assoc]

theorem Lexes.before (h : Lexes s ls) (h' : LexesBefore t ls') :
    LexesBefore (s ++ t) (ls ++ ls') := by
  intro rest hrest
  rw [String.toList_append, List.append_assoc, h, h' rest hrest, List.append_assoc]

/-- A text that begins with a mark or with white space ends the word in front of it. -/
theorem LexesBefore.append {c : Char} {cs : List Char} (h : LexesBefore s ls)
    (h' : Lexes (String.ofList (c :: cs)) ls') (hc : isWordChar c = false) :
    Lexes (s ++ String.ofList (c :: cs)) (ls ++ ls') := by
  intro rest
  have hends : EndsWord ((String.ofList (c :: cs)).toList ++ rest) := by
    intro d hd
    rw [String.toList_ofList, List.cons_append, List.head?_cons, Option.mem_some_iff] at hd
    exact hd ▸ hc
  rw [String.toList_append, List.append_assoc, h _ hends, h', List.append_assoc]

theorem join_cons (s : String) (ss : List String) :
    String.join (s :: ss) = s ++ String.join ss := by
  rw [← String.toList_inj, String.toList_append, String.toList_join, String.toList_join]
  rfl

theorem lexes_join {α : Type} {f : α → String} {g : α → List Lexeme} {xs : List α}
    (h : ∀ x ∈ xs, Lexes (f x) (g x)) : Lexes (String.join (xs.map f)) (xs.flatMap g) := by
  intro rest
  rw [String.toList_join]
  induction xs with
  | nil => rfl
  | cons x xs ih =>
    have hx := h x (List.mem_cons_self ..)
    have hxs := ih fun y hy => h y (List.mem_cons_of_mem _ hy)
    rw [List.map_cons, List.flatMap_cons, List.flatMap_cons, List.append_assoc, hx, hxs,
      List.append_assoc]

/-! ### Types -/

/-- Every name in a type is a word. -/
def Ty.Wordy : Ty → Prop
  | .named name => IsWord name.toList
  | .maybe t => t.Wordy
  | .array t => t.Wordy

def Ty.expr : Ty → TypeExpr
  | .named name => .named name
  | .maybe t => .generic "Maybe" t.expr
  | .array t => .generic "Array" t.expr

def Ty.lexemes : Ty → List Lexeme
  | .named name => [word name]
  | .maybe t => [word "Maybe", mark '<'] ++ t.lexemes ++ [mark '>']
  | .array t => [word "Array", mark '<'] ++ t.lexemes ++ [mark '>']

theorem lexesBefore_text {t : Ty} (h : t.Wordy) : LexesBefore t.text t.lexemes := by
  have hopen : Lexes "Maybe<" [word "Maybe", mark '<'] := lexes_of_run (by decide)
  have hopen' : Lexes "Array<" [word "Array", mark '<'] := lexes_of_run (by decide)
  have hclose : Lexes ">" [mark '>'] := lexes_of_run (by decide)
  have hbefore : ∀ {s ls}, Lexes s ls → LexesBefore s ls := fun h rest _ => h rest
  induction t with
  | named name => exact lexesBefore_word h
  | maybe t ih => exact hbefore ((hopen.before (ih h)).append hclose (by decide))
  | array t ih => exact hbefore ((hopen'.before (ih h)).append hclose (by decide))

/-! ### Enums and structs -/

/-- The lexemes of `derive` with some traits. -/
def deriveLexemes (traits : List Lexeme) : List Lexeme :=
  mark '#' :: mark '[' :: word "derive" :: mark '(' :: traits ++ [mark ')', mark ']']

def serdeTraits : List Lexeme := [word "Drop", mark ',', word "Serde"]

def maybeLexemes : List Lexeme :=
  deriveLexemes serdeTraits ++ [word "enum", word "Maybe", mark '<', word "T", mark '>',
    mark '\x7b', word "Absent", mark ':', mark '(', mark ')', mark ',', word "Present",
    mark ':', word "T", mark ',', mark '\x7d']

def variantLexemes (name : String) : List Lexeme := [word name, mark ',']

def Variants.lexemes (e : Variants) : List Lexeme :=
  deriveLexemes (serdeTraits ++ [mark ',', word "PartialEq"]) ++ [word "enum"] ++
    [word e.name] ++ [mark '\x7b'] ++ e.variants.flatMap variantLexemes ++ [mark '\x7d']

def memberLexemes (m : String × Ty) : List Lexeme :=
  [] ++ [word m.1] ++ [mark ':'] ++ m.2.lexemes ++ [mark ',']

def Struct.lexemes (s : Struct) : List Lexeme :=
  deriveLexemes serdeTraits ++ [word "struct"] ++ [word s.name] ++ [mark '\x7b'] ++
    s.members.flatMap memberLexemes ++ [mark '\x7d']

theorem lexes_maybeText : Lexes maybeText maybeLexemes := by
  have hcomment : Lexes "/// Optional value with the bridge's presence layout: Absent = 0, Present = 1.\n"
      [] := lexes_of_run (by decide)
  have hderive : Lexes "#[derive(Drop, Serde)]\n" (deriveLexemes serdeTraits) :=
    lexes_of_run (by decide)
  have hname : Lexes "enum Maybe<T> \x7b\n" [word "enum", word "Maybe", mark '<', word "T",
    mark '>', mark '\x7b'] := lexes_of_run (by decide)
  have habsent : Lexes "    Absent: (),\n" [word "Absent", mark ':', mark '(', mark ')',
    mark ','] := lexes_of_run (by decide)
  have hpresent : Lexes "    Present: T,\n" [word "Present", mark ':', word "T", mark ','] :=
    lexes_of_run (by decide)
  have hend : Lexes "\x7d\n\n" [mark '\x7d'] := lexes_of_run (by decide)
  exact ((((hcomment.append hderive).append hname).append habsent).append hpresent).append hend

theorem lexes_openBrace : Lexes " \x7b\n" [mark '\x7b'] := lexes_of_run (by decide)

theorem lexes_closeBrace : Lexes "\x7d\n\n" [mark '\x7d'] := lexes_of_run (by decide)

theorem lexes_indent : Lexes "    " [] := lexes_of_run (by decide)

theorem lexes_comma : Lexes ",\n" [mark ','] := lexes_of_run (by decide)

theorem lexes_variants {e : Variants} (hname : IsWord e.name.toList)
    (hvariants : ∀ v ∈ e.variants, IsWord v.toList) : Lexes e.text e.lexemes := by
  have hhead : Lexes "#[derive(Drop, Serde, PartialEq)]\nenum "
      (deriveLexemes (serdeTraits ++ [mark ',', word "PartialEq"]) ++ [word "enum"]) :=
    lexes_of_run (by decide)
  have hbody : Lexes (String.join (e.variants.map fun v => "    " ++ v ++ ",\n"))
      (e.variants.flatMap variantLexemes) :=
    lexes_join fun v hv =>
      (lexes_indent.before (lexesBefore_word (hvariants v hv))).append lexes_comma (by decide)
  have hopen := (hhead.before (lexesBefore_word hname)).append lexes_openBrace (by decide)
  exact (hopen.append hbody).append lexes_closeBrace

theorem lexes_struct {s : Struct} (hname : IsWord s.name.toList)
    (hmembers : ∀ m ∈ s.members, IsWord m.1.toList ∧ m.2.Wordy) : Lexes s.text s.lexemes := by
  have hhead : Lexes "#[derive(Drop, Serde)]\nstruct "
      (deriveLexemes serdeTraits ++ [word "struct"]) := lexes_of_run (by decide)
  have hcolon : Lexes ": " [mark ':'] := lexes_of_run (by decide)
  have hbody : Lexes (String.join (s.members.map fun m => "    " ++ m.1 ++ ": " ++ m.2.text ++ ",\n"))
      (s.members.flatMap memberLexemes) := by
    refine lexes_join fun m hm => ?_
    obtain ⟨hword, htype⟩ := hmembers m hm
    have hmember := (lexes_indent.before (lexesBefore_word hword)).append hcolon (by decide)
    exact (hmember.before (lexesBefore_text htype)).append lexes_comma (by decide)
  have hopen := (hhead.before (lexesBefore_word hname)).append lexes_openBrace (by decide)
  exact (hopen.append hbody).append lexes_closeBrace

/-! ### Implementations -/

def Braceless (ls : List Lexeme) : Prop := ∀ l ∈ ls, l ≠ mark '\x7b' ∧ l ≠ mark '\x7d'

theorem Braceless.append (h : Braceless ls) (h' : Braceless ls') : Braceless (ls ++ ls') :=
  fun l hl => (List.mem_append.1 hl).elim (h l) (h' l)

theorem Braceless.word (h : Braceless ls) (name : String) : Braceless (ls ++ [word name]) :=
  h.append fun l hl => by rw [List.mem_singleton.1 hl]; exact ⟨nofun, nofun⟩

/-- A text whose lexemes have no braces. -/
def Unbraced (s : String) : Prop := ∃ ls, Lexes s ls ∧ Braceless ls

theorem unbraced_of_run {cs : List Char} (h : (run .between cs).1 = .between ∧
    ∀ l ∈ (run .between cs).2, l ≠ mark '\x7b' ∧ l ≠ mark '\x7d') : Unbraced (String.ofList cs) :=
  ⟨_, lexes_of_run (Prod.ext h.1 rfl), h.2⟩

/-- A selector, which may be empty. -/
theorem exists_lexesBefore (h : ∀ c ∈ s.toList, isWordChar c = true) :
    ∃ ls, LexesBefore s ls ∧ Braceless ls := by
  by_cases hempty : s.toList = []
  · refine ⟨[], fun rest _ => ?_, fun l hl => absurd hl List.not_mem_nil⟩
    rw [hempty]
    rfl
  · have hnone : Braceless [] := fun l hl => absurd hl List.not_mem_nil
    exact ⟨_, lexesBefore_word ⟨hempty, h⟩, hnone.word s⟩

/-- All names of a function are words, and its selector consists of their characters. -/
structure Function.Wordy (f : Function) : Prop where
  name : IsWord f.name.toList
  argument : IsWord f.argument.toList
  result : IsWord f.result.toList
  selector : ∀ c ∈ f.selector.toList, isWordChar c = true

/-- A function is a head and a body in braces, neither of which has braces itself. -/
theorem exists_lexes_function {f : Function} (h : f.Wordy) : ∃ head body,
    Lexes f.text (head ++ [mark '\x7b'] ++ body ++ [mark '\x7d']) ∧
      Braceless head ∧ Braceless body := by
  obtain ⟨fn, hfn, pfn⟩ : Unbraced "    fn " := unbraced_of_run (by decide)
  obtain ⟨arg, harg, parg⟩ : Unbraced "(arg: " := unbraced_of_run (by decide)
  obtain ⟨arrow, harrow, parrow⟩ : Unbraced ") -> " := unbraced_of_run (by decide)
  obtain ⟨new, hnew, pnew⟩ : Unbraced "        let mut serialized = ArrayTrait::new();\n" := unbraced_of_run (by decide)
  obtain ⟨write, hwrite, pwrite⟩ : Unbraced "        arg.serialize(ref serialized);\n" := unbraced_of_run (by decide)
  obtain ⟨call, hcall, pcall⟩ : Unbraced "        let mut result = cheatcode::<'" := unbraced_of_run (by decide)
  obtain ⟨selector, hselector, pselector⟩ := exists_lexesBefore h.selector
  obtain ⟨span, hspan, pspan⟩ : Unbraced "'>(serialized.span());\n" := unbraced_of_run (by decide)
  obtain ⟨read, hread, pread⟩ : Unbraced "        Serde::deserialize(ref result).unwrap()\n" := unbraced_of_run (by decide)
  have hend : Lexes "    \x7d\n" [mark '\x7d'] := lexes_of_run (by decide)
  have hname := (hfn.before (lexesBefore_word h.name)).append harg (by decide)
  have hargument := (hname.before (lexesBefore_word h.argument)).append harrow (by decide)
  have hopen := (hargument.before (lexesBefore_word h.result)).append lexes_openBrace (by decide)
  have hbody := (((hopen.append hnew).append hwrite).append hcall).before hselector
  have htext := ((hbody.append hspan (by decide)).append hread).append hend
  refine ⟨fn ++ [word f.name] ++ arg ++ [word f.argument] ++ arrow ++ [word f.result],
    new ++ write ++ call ++ selector ++ span ++ read, ?_, ?_, ?_⟩
  · simp only [List.append_assoc] at htext ⊢
    exact htext
  · exact ((((pfn.word _).append parg).word _).append parrow).word _
  · exact ((((pnew.append pwrite).append pcall).append pselector).append pspan).append pread

/-- Lexemes between braces that leave the reader at the depth where they found it. -/
def Balanced (ls : List Lexeme) : Prop :=
  ∀ depth rest, behindBody (depth + 1) (ls ++ rest) = behindBody (depth + 1) rest

theorem Balanced.append (h : Balanced ls) (h' : Balanced ls') : Balanced (ls ++ ls') := by
  intro depth rest
  rw [List.append_assoc, h, h']

theorem Braceless.balanced (h : Braceless ls) : Balanced ls := fun _ _ => behindBody_append h

theorem Balanced.braces (h : Balanced ls) : Balanced ([mark '\x7b'] ++ ls ++ [mark '\x7d']) := by
  intro depth rest
  rw [List.append_assoc, List.append_assoc, List.singleton_append, behindBody, if_pos rfl, h,
    List.singleton_append, behindBody, if_neg (by simp), if_pos rfl, if_neg (by omega)]
  rfl

theorem exists_balanced {f : Function} (h : f.Wordy) : ∃ ls, Lexes f.text ls ∧ Balanced ls := by
  obtain ⟨head, body, htext, hhead, hbody⟩ := exists_lexes_function h
  refine ⟨_, htext, ?_⟩
  rw [List.append_assoc, List.append_assoc, ← List.append_assoc [mark '\x7b']]
  exact hhead.balanced.append hbody.balanced.braces

theorem exists_balanced_join {fs : List Function} (h : ∀ f ∈ fs, f.Wordy) :
    ∃ ls, Lexes (String.join (fs.map Function.text)) ls ∧ Balanced ls := by
  induction fs with
  | nil => exact ⟨[], fun _ => rfl, fun _ _ => rfl⟩
  | cons f fs ih =>
    obtain ⟨ls, hls, hbalanced⟩ := exists_balanced (h f (List.mem_cons_self ..))
    obtain ⟨ls', hls', hbalanced'⟩ := ih fun g hg => h g (List.mem_cons_of_mem _ hg)
    refine ⟨ls ++ ls', ?_, hbalanced.append hbalanced'⟩
    rw [List.map_cons, join_cons]
    exact hls.append hls'

/-- An implementation is an attribute, a head and a body in braces. -/
theorem exists_lexes_implementation {i : Implementation} (hname : IsWord i.name.toList)
    (hfunctions : ∀ f ∈ i.functions, f.Wordy) : ∃ head body,
    Lexes i.text ([mark '#', mark '[', word "generate_trait", mark ']', word "impl"] ++ head ++
      [mark '\x7b'] ++ body ++ [mark '\x7d']) ∧ Braceless head ∧ Balanced body := by
  have himpl : Lexes "#[generate_trait]\nimpl "
      [mark '#', mark '[', word "generate_trait", mark ']', word "impl"] := lexes_of_run (by decide)
  have hof : Lexes " of " [word "of"] := lexes_of_run (by decide)
  have htrait : Lexes (i.name ++ "Trait \x7b\n") ([word (i.name ++ "Trait")] ++ [mark '\x7b']) := by
    have hword : IsWord (i.name ++ "Trait").toList := by
      have hchars : "Trait".toList.all isWordChar = true := by
        rw [String.toList_ofList]
        decide
      rw [String.toList_append]
      exact hname.append (List.all_eq_true.1 hchars)
    have hsplit : i.name ++ "Trait \x7b\n" = i.name ++ "Trait" ++ " \x7b\n" := by
      rw [String.append_assoc]
      rfl
    rw [hsplit]
    exact (lexesBefore_word hword).append lexes_openBrace (by decide)
  obtain ⟨body, hbody, hbalanced⟩ := exists_balanced_join hfunctions
  have hhead := ((himpl.before (lexesBefore_word hname)).append hof (by decide)).append htrait
  have htext := (hhead.append hbody).append lexes_closeBrace
  rw [← String.append_assoc] at htext
  have hnone : Braceless [] := fun l hl => absurd hl List.not_mem_nil
  refine ⟨[word i.name] ++ [word "of"] ++ [word (i.name ++ "Trait")], body, ?_,
    ((hnone.word _).word _).word _, hbalanced⟩
  simp only [List.append_assoc] at htext ⊢
  exact htext

end FeltRelay.Cairo
