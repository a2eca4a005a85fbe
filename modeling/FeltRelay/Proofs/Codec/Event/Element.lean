import FeltRelay.Codec.Event.Decode
import FeltRelay.Codec.Event.Encode
import FeltRelay.Proofs.Codec.ByteString
import FeltRelay.Proofs.Codec.Element
import FeltRelay.Proofs.Codec.Input

/-!
# Single events

An event is read as what it is: an opening, a closing or a name where one is expected, an element of
the field, the elements of a byte string.
-/

namespace FeltRelay.Codec.Event

open FeltRelay.Schema

variable {modulus : Int} {α : Type}

theorem run_peek (op : String) (arg : Json) (rest : List Json) (position : Nat) :
    peek.run ⟨.arr [.str op, arg] :: rest, position⟩ =
      .ok ((.str op, arg), ⟨.arr [.str op, arg] :: rest, position⟩) := rfl

theorem reads_expect (op arg : String) :
    Reads (expect op arg) [.arr [.str op, .str arg]] () := by
  intro rest position
  rw [List.singleton_append, expect, StateT.run_bind, run_peek, ok_bind]
  simp only [isText, decide_true, Bool.and_self, if_true]
  rfl

/-- Moving on past an event that was looked at. -/
theorem reads_advance (e : Json) : Reads (modify (·.advance 1) : Decoder Unit) [e] () :=
  fun _ _ => rfl

theorem run_element (v : Json) (rest : List Json) (position : Nat) :
    (element modulus).run ⟨.arr [.str "value", v] :: rest, position⟩ =
      (checkElement modulus position v).map fun n => (n, ⟨rest, position + 1⟩) := by
  rw [element, StateT.run_bind, StateT.run_get, pure_eq_ok, ok_bind, StateT.run_bind, run_peek,
    ok_bind]
  simp only [isText, decide_true, if_true, StateT.run_bind, StateT.run_set, pure_eq_ok, ok_bind,
    run_liftM]
  rfl

theorem reads_element {n : Nat} (h : (n : Int) < modulus) :
    Reads (element modulus) [(value n).toJson] n := by
  intro rest position
  have hcheck : checkElement modulus position (.int n) = .ok n :=
    checkElement_int _ (Int.natCast_nonneg n) h
  rw [List.singleton_append, toJson, run_element, hcheck]
  rfl

/-- Some elements, one after the other. -/
theorem reads_elements {ns : List Nat} (h : ∀ n ∈ ns, (n : Int) < modulus) :
    Reads (elements modulus ns.length) (ns.map fun (n : Nat) => (value n).toJson) ns := by
  induction ns with
  | nil => exact Reads.pure []
  | cons n ns ih =>
    have hhead := reads_element (h n (List.mem_cons_self ..))
    have htail := ih fun k hk => h k (List.mem_cons_of_mem _ hk)
    exact hhead.bind (htail.bind_nil (Reads.pure _))

/-- The closing of a container is found where it stands. -/
theorem reads_atPop_bind {c : Container} {f : Bool → Decoder α} {items : List Json} {a : α}
    (h : Reads (f true) ((pop c).toJson :: items) a) :
    Reads (atPop c >>= f) ((pop c).toJson :: items) a := by
  intro rest position
  have hrun : (atPop c).run ⟨(pop c).toJson :: items ++ rest, position⟩ =
      .ok (true, ⟨(pop c).toJson :: items ++ rest, position⟩) := by
    rw [List.cons_append, toJson, atPop, StateT.run_bind, run_peek, ok_bind]
    simp only [isText, decide_true, Bool.and_self]
    rfl
  rw [StateT.run_bind, hrun]
  exact h rest position

/-- No other event is the closing of a container. -/
theorem reads_notAtPop_bind {c : Container} {f : Bool → Decoder α} {e : Event} (he : ∀ c, e ≠ pop c)
    {items : List Json} {a : α} (h : Reads (f false) (e.toJson :: items) a) :
    Reads (atPop c >>= f) (e.toJson :: items) a := by
  intro rest position
  have hrun : (atPop c).run ⟨e.toJson :: items ++ rest, position⟩ =
      .ok (false, ⟨e.toJson :: items ++ rest, position⟩) := by
    cases e with
    | pop d => exact absurd rfl (he d)
    | _ => rfl
  rw [StateT.run_bind, hrun]
  exact h rest position

/-- A byte string is read from the events of its elements. -/
theorem reads_decodeBytes {kind : Scalar} {bytes : List UInt8} {text : String}
    (helem : ∀ n ∈ packBytes bytes, (n : Int) < modulus)
    (htext : ∀ offset, textOfBytes kind offset bytes = .ok text) :
    Reads (decodeBytes modulus kind)
      ((packBytes bytes).map fun (n : Nat) => (value n).toJson) (.str text) := by
  obtain ⟨words, hpack, hlen⟩ := packBytes_eq bytes
  have hunpack := unpackBytes_packBytes 0 bytes []
  rw [hpack, List.append_nil] at hunpack
  rw [hpack] at helem ⊢
  rw [List.map_cons]
  refine Reads.get_bind fun start _ => ?_
  refine (reads_element (helem _ (List.mem_cons_self ..))).bind (Reads.get_bind fun s hs => ?_)
  have hleft := hs.length_le
  rw [List.length_map] at hleft
  have hcount : min (bytes.length / wordBytes + 2) (s.rest.length + 1) = words.length := by
    rw [hlen] at hleft ⊢
    exact Nat.min_eq_left (Nat.le_succ_of_le hleft)
  dsimp only
  rw [hcount]
  refine (reads_elements fun n hn => helem n (List.mem_cons_of_mem _ hn)).bind_nil ?_
  refine Reads.liftM_bind hunpack ?_
  exact Reads.liftM_bind (htext _) (Reads.pure _)

/-! ### What was read -/

theorem eq_of_isText {expected : String} {v : Json} (h : isText expected v = true) :
    v = .str expected := by
  cases v with
  | str s => exact congrArg Json.str (of_decide_eq_true h)
  | _ => cases h

/-- An event that was looked at is there. -/
theorem of_peek {s s' : Input} {op arg : Json} (h : peek.run s = .ok ((op, arg), s')) :
    s' = s ∧ ∃ rest, s.rest = .arr [op, arg] :: rest := by
  obtain ⟨items, position⟩ := s
  match items with
  | [] => cases h
  | .arr [_, _] :: rest =>
    cases h
    exact ⟨rfl, rest, rfl⟩
  | .null :: _ | .bool _ :: _ | .int _ :: _ | .num _ :: _ | .str _ :: _ | .obj _ :: _
  | .arr [] :: _ | .arr [_] :: _ | .arr (_ :: _ :: _ :: _) :: _ => cases h

theorem consumed_advance {s : Input} {e : Json} {rest : List Json} (hs : s.rest = e :: rest) :
    Consumed s [e] (s.advance 1) := by
  refine ⟨?_, rfl⟩
  rw [Input.advance, hs]
  rfl

theorem consumed_of_expect {op arg : String} {s s' : Input} {u : Unit}
    (h : (expect op arg).run s = .ok (u, s')) : Consumed s [.arr [.str op, .str arg]] s' := by
  obtain ⟨⟨gotOp, gotArg⟩, s₁, hpeek, hnext⟩ := run_bind_eq_ok_iff.1 h
  obtain ⟨rfl, rest, hs⟩ := of_peek hpeek
  dsimp only at hnext
  split at hnext
  · rename_i hgot
    rw [Bool.and_eq_true] at hgot
    cases hnext
    rw [eq_of_isText hgot.1, eq_of_isText hgot.2] at hs
    exact consumed_advance hs
  · cases hnext

theorem consumed_of_element {s s' : Input} {n : Nat}
    (h : (element modulus).run s = .ok (n, s')) :
    Consumed s [(value n).toJson] s' ∧ (n : Int) < modulus := by
  obtain ⟨start, s₁, hget, h⟩ := run_bind_eq_ok_iff.1 h
  cases hget
  obtain ⟨⟨op, arg⟩, s₁, hpeek, hnext⟩ := run_bind_eq_ok_iff.1 h
  obtain ⟨rfl, rest, hs⟩ := of_peek hpeek
  dsimp only at hnext
  split at hnext
  · rename_i hop
    obtain ⟨_, s₂, hset, hlift⟩ := run_bind_eq_ok_iff.1 hnext
    cases hset
    rw [run_liftM] at hlift
    obtain ⟨k, hcheck, hpair⟩ := map_eq_ok_iff.1 hlift
    cases hpair
    obtain ⟨rfl, hlt⟩ := checkElement_eq_ok hcheck
    rw [eq_of_isText hop] at hs
    exact ⟨consumed_advance hs, hlt⟩
  · cases hnext

theorem consumed_of_elements {k : Nat} {s s' : Input} {ns : List Nat}
    (h : (elements modulus k).run s = .ok (ns, s')) :
    ns.length = k ∧ Consumed s (ns.map fun (n : Nat) => (value n).toJson) s' := by
  induction k generalizing s ns with
  | zero =>
    cases h
    exact ⟨rfl, .refl _⟩
  | succ k ih =>
    obtain ⟨n, s₁, hhead, h⟩ := run_bind_eq_ok_iff.1 h
    obtain ⟨ns', s₂, htail, h⟩ := run_bind_eq_ok_iff.1 h
    cases run_pure_eq_ok_iff.1 h
    obtain ⟨hlen, hrest⟩ := ih htail
    exact ⟨congrArg (· + 1) hlen, (consumed_of_element hhead).1.trans hrest⟩

/-- A byte string that was read has the elements that it was read from. -/
theorem consumed_of_decodeBytes {kind : Scalar} {s s' : Input} {v : Json}
    (h : (decodeBytes modulus kind).run s = .ok (v, s')) :
    ∃ bytes text, v = .str text ∧ textOfBytes kind s.position bytes = .ok text ∧
      Consumed s ((packBytes bytes).map fun (n : Nat) => (value n).toJson) s' := by
  obtain ⟨start, s₁, hget, h⟩ := run_bind_eq_ok_iff.1 h
  cases hget
  obtain ⟨count, s₁, hhead, h⟩ := run_bind_eq_ok_iff.1 h
  obtain ⟨start, s₂, hget, h⟩ := run_bind_eq_ok_iff.1 h
  cases hget
  obtain ⟨words, s₂, hwords, h⟩ := run_bind_eq_ok_iff.1 h
  obtain ⟨⟨bytes, left⟩, s₃, hlift, h⟩ := run_bind_eq_ok_iff.1 h
  rw [run_liftM] at hlift
  obtain ⟨_, hunpack, hpair⟩ := map_eq_ok_iff.1 hlift
  cases hpair
  obtain ⟨text, s₃, hlift, h⟩ := run_bind_eq_ok_iff.1 h
  rw [run_liftM] at hlift
  obtain ⟨_, htext, hpair⟩ := map_eq_ok_iff.1 hlift
  cases hpair
  cases run_pure_eq_ok_iff.1 h
  obtain ⟨hlen, hrest⟩ := consumed_of_elements hwords
  obtain ⟨tail, hpack, htail⟩ := packBytes_eq bytes
  have heq := eq_packBytes_of_unpackBytes hunpack
  rw [hpack, List.cons_append, List.cons.injEq] at heq
  obtain ⟨rfl, rfl⟩ := heq
  rw [List.length_append, htail] at hlen
  have hnil : left = [] := List.length_eq_zero_iff.1 (by omega)
  rw [hnil, List.append_nil] at hrest
  refine ⟨bytes, text, rfl, htext, ?_⟩
  rw [hpack, List.map_cons]
  exact (consumed_of_element hhead).1.trans hrest

/-- The test for the closing of a container reads nothing. -/
theorem of_atPop {c : Container} {s s' : Input} {closed : Bool}
    (h : (atPop c).run s = .ok (closed, s')) :
    s' = s ∧ ∃ e rest, s.rest = e :: rest ∧ (closed = true → e = (pop c).toJson) := by
  obtain ⟨⟨op, arg⟩, s₁, hpeek, hret⟩ := run_bind_eq_ok_iff.1 h
  obtain ⟨rfl, rest, hs⟩ := of_peek hpeek
  cases run_pure_eq_ok_iff.1 hret
  refine ⟨rfl, _, rest, hs, fun hclosed => ?_⟩
  rw [Bool.and_eq_true] at hclosed
  rw [eq_of_isText hclosed.1, eq_of_isText hclosed.2]
  rfl

end FeltRelay.Codec.Event
