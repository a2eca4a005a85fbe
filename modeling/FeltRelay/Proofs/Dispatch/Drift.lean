import FeltRelay.Dispatch
import FeltRelay.Proofs.Dispatch.ExpectedHash
import FeltRelay.Proofs.Schema.Lock.Canonical
import Mathlib.Data.Set.Function

/-!
# Schema drift is detected

The hash that a Cairo file states, as a text or as an element, is compared as an element
(`checkDrift_stated`). A dispatcher that expects it is made for the lock of another model if and
only if both models declare the same (`stated_hash_detects_drift`).
-/

namespace FeltRelay.Dispatch

open FeltRelay.Schema FeltRelay.Text

/-! ### What is compared -/

/-- An expected hash that stands for an element, as generated code states it. -/
inductive ExpectedHash.Stated (n : Nat) : ExpectedHash → Prop
  | text : Stated n (.text (hexadecimal n))
  | element : Stated n (.element n)

variable {n : Nat} {expected : ExpectedHash}

theorem ExpectedHash.Stated.element?_eq (h : expected.Stated n) :
    expected.element? = some (n : Int) := by
  cases h with
  | text => exact literal?_hexadecimal n
  | element => rfl

theorem checkElement_stated (h : expected.Stated n) (m : Model) :
    checkElement expected m.lock = if n = m.element then .ok ()
      else .error (.schemaDrift (hexadecimal n) (hexadecimal m.element)) := by
  have hheld : (hashElement? m.lock.hash).getD 0 = m.element := by
    rw [Model.lock, Model.hashElement?_hash, Option.getD_some]
  simp only [checkElement, h.element?_eq, hheld, signedHex_natCast, Int.natCast_inj]

/-- The literal of an element is too short for the text of a whole hash. -/
theorem checkDrift_stated (h : expected.Stated n) (hn : n < 16 ^ 62) (m : Model) :
    checkDrift expected m.lock = if n = m.element then .ok ()
      else .error (.schemaDrift (hexadecimal n) (hexadecimal m.element)) := by
  rw [← checkElement_stated h]
  cases h with
  | text =>
    have hlen := length_hashDigits_hexadecimal hn
    rw [checkDrift, if_neg (by omega)]
  | element => rfl

/-! ### Dispatchers -/

/-- An expected hash as a program takes it from the Cairo file of a lock: the literal that stands
there, or the integer that the literal spells. -/
inductive ExpectedHash.TakenFrom (l : Lock) (source : Option String) : ExpectedHash → Prop
  | text {literal : String} (h : Cairo.StatesHash l source literal) :
    TakenFrom l source (.text literal)
  | element {literal : String} {value : Int} (h : Cairo.StatesHash l source literal)
    (hvalue : literal? literal = some value) : TakenFrom l source (.element value)

theorem statesHash_lock_iff {m : Model} {source : Option String} {literal : String} :
    Cairo.StatesHash m.lock source literal ↔ literal = hexadecimal m.element := by
  rw [Cairo.statesHash_iff, Model.lock, Model.hashElement?_hash, Option.getD_some]

theorem ExpectedHash.TakenFrom.stated {m : Model} {source : Option String}
    (h : expected.TakenFrom m.lock source) : expected.Stated m.element := by
  cases h with
  | text h =>
    rw [statesHash_lock_iff.1 h]
    exact .text
  | element h hvalue =>
    rw [statesHash_lock_iff.1 h, literal?_hexadecimal] at hvalue
    cases hvalue
    exact .element

theorem ofLock_expected (lock : Lock) (table : Server.Table) (setup : Setup)
    (expected : ExpectedHash) :
    Dispatcher.ofLock lock table { setup with expected := some expected } =
      (Attempt.ofExcept (checkDrift expected lock)).bind fun _ =>
        Dispatcher.ofLock lock table { setup with expected := none } := rfl

/-- On documents that the first 31 bytes of their digests tell apart, the hash that generated code
carries detects every drift and nothing else. Two models that were read have the same canonical
bytes if and only if they declare the same. If they do, a dispatcher for the lock of the second one
is made with the hash of the first one's file as without any; otherwise it is refused with both
hashes. The set of all documents has not the property that is assumed, since there are more of them
than elements, so the documents in question are named. -/
theorem stated_hash_detects_drift {documents : Set (List UInt8)}
    (hdocuments : documents.InjOn shortDigest) {m₁ m₂ : Model} {text₁ text₂ : String}
    (h₁ : m₁.ReadFrom text₁) (h₂ : m₂.ReadFrom text₂) (hm₁ : m₁.canonicalBytes ∈ documents)
    (hm₂ : m₂.canonicalBytes ∈ documents) :
    (m₁.canonicalBytes = m₂.canonicalBytes ↔ m₁.same m₂ = true) ∧
    ∀ source, ∃ literal, Cairo.StatesHash m₁.lock source literal ∧
      ∀ expected : ExpectedHash, expected.TakenFrom m₁.lock source →
      ∀ (table : Server.Table) (setup : Setup),
        Dispatcher.ofLock m₂.lock table { setup with expected := some expected } =
          if m₁.same m₂ then Dispatcher.ofLock m₂.lock table { setup with expected := none }
          else .error (.failure (.schemaDrift literal (hexadecimal m₂.element))) := by
  have hbytes : m₁.canonicalBytes = m₂.canonicalBytes ↔ m₁.same m₂ = true :=
    Model.encode_canonicalText_eq_iff h₁.sound h₂.sound
  have helement : m₁.element = m₂.element ↔ m₁.same m₂ = true := by
    rw [Model.element_eq_iff, hdocuments.eq_iff hm₁ hm₂, hbytes]
  refine ⟨hbytes, fun source => ⟨hexadecimal m₁.element, statesHash_lock_iff.2 rfl, ?_⟩⟩
  intro expected hexpected table setup
  rw [ofLock_expected, checkDrift_stated hexpected.stated m₁.element_lt]
  by_cases hsame : m₁.same m₂ = true
  · rw [if_pos (helement.2 hsame), if_pos hsame]
    rfl
  · rw [if_neg fun h => hsame (helement.1 h), if_neg hsame]
    rfl

/-- A model that has nothing but a package. -/
def ofPackage (package : String) : Model := ⟨some package, [], [], []⟩

-- One digest at a time, or else the kernel keeps the work on both.
theorem shortDigest_ofPackage_a :
    (shortDigest (ofPackage "a").canonicalBytes)[1]? = some 0x29 := by decide +kernel

theorem shortDigest_ofPackage_b :
    (shortDigest (ofPackage "b").canonicalBytes)[1]? = some 0x9a := by decide +kernel

theorem shortDigest_ofPackage : shortDigest (ofPackage "a").canonicalBytes ≠
    shortDigest (ofPackage "b").canonicalBytes := by
  intro h
  have hbyte := shortDigest_ofPackage_a
  rw [h, shortDigest_ofPackage_b] at hbyte
  exact absurd hbyte (by decide)

/-- A dispatcher for the lock of one package is refused with the hash of another one. -/
theorem stated_hash_detects_drift_packages : ∃ literal,
    Cairo.StatesHash (ofPackage "a").lock none literal ∧ ∀ table,
      Dispatcher.ofLock (ofPackage "b").lock table { expected := some (.text literal) } =
        .error (.failure (.schemaDrift literal (hexadecimal (ofPackage "b").element))) := by
  have hread : ∀ p ∈ ["a", "b"], (ofPackage p).ReadFrom ("package " ++ p ++ ";") := by
    simp only [List.mem_cons, List.not_mem_nil, or_false, forall_eq_or_imp, forall_eq]
    exact ⟨.definitions (eq_ok_of_toOption (by decide +kernel)),
      .definitions (eq_ok_of_toOption (by decide +kernel))⟩
  have hdocuments : ({(ofPackage "a").canonicalBytes, (ofPackage "b").canonicalBytes} :
      Set (List UInt8)).InjOn shortDigest := by
    refine Set.injOn_pair.2 fun h => ?_
    exact absurd h shortDigest_ofPackage
  obtain ⟨-, hstated⟩ := stated_hash_detects_drift hdocuments (hread "a" (by simp))
    (hread "b" (by simp)) (by simp) (by simp)
  obtain ⟨literal, hliteral, hrefused⟩ := hstated none
  exact ⟨literal, hliteral, fun table => hrefused _ (.text hliteral) table {}⟩

end FeltRelay.Dispatch
