import FeltRelay.Cairo.Declarations
import FeltRelay.Proofs.Text.Literal

/-!
# The hash constant of a file

A file states the hash of its schema as one literal, the element in hexadecimal
(`statesHash_iff`).
-/

namespace FeltRelay.Cairo

open FeltRelay.Schema FeltRelay.Text

variable {l : Lock} {source : Option String}

/-- A file up to the value of its hash constant. -/
def opening (l : Lock) (source : Option String) : String :=
  "// This file was generated by oracle-bridge from " ++ originOf source l.model.package ++
    ". Do not edit by hand.\n" ++ "use starknet::testing::cheatcode;\n\n" ++ "// " ++ l.hash ++
    "\n" ++ "const SCHEMA_HASH: felt252 = "

/-- The file of a lock gives its hash constant a literal as value. -/
def StatesHash (l : Lock) (source : Option String) (literal : String) : Prop :=
  ';' ∉ literal.toList ∧ ∃ rest, emit l source = opening l source ++ literal ++ ";" ++ rest

theorem endLine_append {s : String} (hs : s.toList.getLast? = some ';') (t : String) :
    endLine (s ++ t) = s ++ endLine t := by
  obtain ⟨cs, hcs⟩ := List.getLast?_eq_some_iff.1 hs
  have hfront : s.toList.reverse.dropWhile (· = '\n') = s.toList.reverse := by
    rw [hcs, List.reverse_append, List.reverse_singleton, List.singleton_append,
      List.dropWhile_cons_of_neg (by decide)]
  have hdrop : (t.toList.reverse ++ s.toList.reverse).dropWhile (· = '\n') =
      t.toList.reverse.dropWhile (· = '\n') ++ s.toList.reverse := by
    rw [List.dropWhile_append]
    split
    · rename_i hempty
      rw [hfront, List.isEmpty_iff.1 hempty, List.nil_append]
    · rfl
  rw [endLine, endLine, String.toList_append, List.reverse_append, hdrop, List.reverse_append,
    List.reverse_reverse, String.ofList_append, String.ofList_toList, String.append_assoc]

/-- The element stands behind the opening. -/
theorem emit_eq (l : Lock) (source : Option String) : ∃ rest, emit l source =
    opening l source ++ hexadecimal ((hashElement? l.hash).getD 0) ++ ";" ++ rest := by
  obtain ⟨digits, hdigits⟩ : ∃ s, s = hexadecimal ((hashElement? l.hash).getD 0) := ⟨_, rfl⟩
  have hhead : header (originOf source l.model.package) l.hash ((hashElement? l.hash).getD 0) =
      opening l source ++ digits ++ ";" ++ "\n\n" := by
    have hend : ";" ++ "\n\n" = ";\n\n" := by decide
    rw [@String.append_assoc _ ";", hend, hdigits]
    rfl
  have hlast : (opening l source ++ digits ++ ";").toList.getLast? = some ';' := by
    rw [String.toList_append]
    exact List.getLast?_concat
  refine ⟨endLine ("\n\n" ++ (File.ofModel l.model).text), ?_⟩
  rw [emit, hhead, String.append_assoc, endLine_append hlast, hdigits]

theorem eq_of_append_semicolon {s t r r' : List Char} (hs : ';' ∉ s) (ht : ';' ∉ t)
    (h : s ++ ';' :: r = t ++ ';' :: r') : s = t := by
  have htake : ∀ {s : List Char}, ';' ∉ s → ∀ r,
      (s ++ ';' :: r).takeWhile (fun c => decide (c ≠ ';')) = s := by
    intro s hs r
    have hall : ∀ c ∈ s, decide (c ≠ ';') = true := by
      intro c hc
      refine decide_eq_true ?_
      rintro rfl
      exact hs hc
    rw [List.takeWhile_append_of_pos hall, List.takeWhile_cons_of_neg (by decide), List.append_nil]
  rw [← htake hs r, h, htake ht]

/-- A file states its hash, and in one way only. -/
theorem statesHash_iff {literal : String} :
    StatesHash l source literal ↔ literal = hexadecimal ((hashElement? l.hash).getD 0) := by
  obtain ⟨rest, hrest⟩ := emit_eq l source
  have hfree : ';' ∉ (hexadecimal ((hashElement? l.hash).getD 0)).toList :=
    fun hmem => (isPlain_of_mem_hexadecimal hmem).2 rfl
  constructor
  · rintro ⟨hliteral, rest', hrest'⟩
    have htext := congrArg String.toList (hrest'.symm.trans hrest)
    simp only [String.toList_append, List.append_assoc, List.append_cancel_left_eq] at htext
    exact String.toList_inj.1 (eq_of_append_semicolon hliteral hfree htext)
  · rintro rfl
    exact ⟨hfree, rest, hrest⟩

end FeltRelay.Cairo
