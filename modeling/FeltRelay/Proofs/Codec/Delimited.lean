import FeltRelay.Proofs.Codec.Agreement
import FeltRelay.Proofs.Codec.Event.Continued

/-!
# Encodings delimit themselves

Both decoders know where an encoding ends: one that is cut anywhere is truncated, never another
value and never a failure of another kind, and whatever follows one is left over. So no encoding
begins with another one.
-/

namespace FeltRelay.Codec

open FeltRelay.Schema FeltRelay.Text

/-- A decoder of whole sequences reads a sequence, misses something in whatever the sequence begins
with, and leaves over whatever follows it. -/
structure Delimits (decode : List Json → Except Failure Json) (wording : String)
    (items : List Json) (v : Json) : Prop where
  whole : decode items = .ok v
  cut : ∀ pre, pre <+: items → pre ≠ items → ∃ f, decode pre = .error f ∧ f.kind = .truncated
  extended : ∀ suf, suf ≠ [] → decode (items ++ suf) =
    .error ⟨.trailingElements, decimal suf.length ++ wording, .element items.length,
      [("remaining", suf.length)]⟩

/-- What a decoder delimits is prefix-free. -/
theorem Delimits.eq_of_prefix {decode : List Json → Except Failure Json} {wording : String}
    {xs ys : List Json} {v w : Json} (hx : Delimits decode wording xs v)
    (hy : Delimits decode wording ys w) (h : xs <+: ys) : xs = ys := by
  by_contra hne
  obtain ⟨f, hf, -⟩ := hy.cut xs h hne
  rw [hx.whole] at hf
  cases hf

/-- What is read from some items is missed in a part of them. -/
theorem Reads.cut {d : Decoder Json} {pre more : List Json} {v : Json} {least : Nat}
    (hread : Reads d (pre ++ more) v) (hmore : more ≠ [])
    (hcont : Continues more least d d ⟨pre, 0⟩) :
    ∃ f, d.run ⟨pre, 0⟩ = .error f ∧ f.kind = .truncated := by
  have hrun := hread [] 0
  rw [List.append_nil] at hrun
  exact hcont.truncated hmore hrun rfl

theorem exists_append_of_prefix {pre items : List Json} (h : pre <+: items) (hne : pre ≠ items) :
    ∃ more, more ≠ [] ∧ items = pre ++ more := by
  obtain ⟨more, rfl⟩ := h
  refine ⟨more, ?_, rfl⟩
  rintro rfl
  exact hne (List.append_nil pre).symm

variable {m : Model} {modulus : Int} {t : Ty} {items : List Json} {v : Json}

namespace Flat

theorem delimits_of_reads (hm : m.Sound) (ht : t.Declared m)
    (hread : Reads (read m modulus t) items v) :
    Delimits (decodeExact m modulus t) " element(s) left after decoding" items v where
  whole := decodeExact_of_reads hread
  cut := by
    intro pre hpre hne
    obtain ⟨more, hmore, rfl⟩ := exists_append_of_prefix hpre hne
    obtain ⟨f, hf, hkind⟩ := hread.cut hmore (continues_read hm ht _)
    refine ⟨f, ?_, hkind⟩
    rw [decodeExact, decode, Input.from, List.drop_zero, hf]
    rfl
  extended := by
    intro suf hsuf
    obtain ⟨hne, hleft⟩ := length_extended items hsuf
    have hdecode := decode_of_reads hread [] suf
    rw [List.nil_append, List.length_nil] at hdecode
    rw [decodeExact, hdecode, ok_bind]
    dsimp only
    rw [if_pos hne, hleft]
    rfl

end Flat

namespace Event

theorem delimits_of_reads (hm : m.Closed) (ht : t.Declared m)
    (hread : Reads (read m modulus t) items v) :
    Delimits (decode m modulus t) " event(s) left after decoding" items v where
  whole := decode_of_reads hread
  cut := by
    intro pre hpre hne
    obtain ⟨more, hmore, rfl⟩ := exists_append_of_prefix hpre hne
    obtain ⟨f, hf, hkind⟩ := hread.cut hmore (continues_read hm ht _)
    refine ⟨f, ?_, hkind⟩
    rw [decode, Input.from, List.drop_zero, hf]
    rfl
  extended := by
    intro suf hsuf
    have hrun := hread suf 0
    rw [Nat.zero_add] at hrun
    exact decode_of_left hrun hsuf

end Event

/-- Either decoder reads the encoding of a value and tells it from whatever it begins with and from
whatever begins with it. -/
theorem encodings_delimited {text : String} (hm : m.ReadFrom text) (hsize : text.length < 2 ^ 248)
    (ht : t.Declared m) (hp : 2 ^ 248 < modulus) (hfits : Fits m t v) :
    (∀ xs, Flat.encode m modulus t v = .ok xs →
      Delimits (Flat.decodeExact m modulus t) " element(s) left after decoding"
        (xs.map .int) (normalised m t v)) ∧
    (∀ events, Event.encode m modulus t v = .ok events →
      Delimits (Event.decode m modulus t) " event(s) left after decoding"
        (events.map Event.toJson) (normalised m t v)) := by
  obtain ⟨height, hbounded⟩ := Flat.exists_bounded hm hsize
  constructor
  · intro xs hxs
    exact Flat.delimits_of_reads hm.sound ht (Flat.reads_read hp hbounded ht hfits hxs)
  · intro events hevents
    have hread := Event.reads_read hp hbounded.variants hfits hevents
    exact Event.delimits_of_reads hbounded.closed ht hread

/-- `Flat.picture` ends with the index of its hue: without it both sequences are cut, and one more
is too many. -/
theorem encodings_delimited_picture :
    (∃ f, Flat.decodeExact Model.canvas starkPrime (.message "Pixel")
        ([7, 0, 1, starkPrime - 2, 1, 0, 171, 1, 0, 0].map Json.int) = .error f ∧
          f.kind = .truncated) ∧
      (∃ f, Event.decode Model.canvas starkPrime (.message "Pixel")
        ((pictureEvents.take 20).map Event.toJson) = .error f ∧ f.kind = .truncated) ∧
      Flat.decodeExact Model.canvas starkPrime (.message "Pixel")
        ([7, 0, 1, starkPrime - 2, 1, 0, 171, 1, 0, 0, 1].map Json.int ++ [.int 1]) =
        .error ⟨.trailingElements, "1 element(s) left after decoding", .element 11,
          [("remaining", .int 1)]⟩ := by
  have hflat : Flat.encode Model.canvas starkPrime (.message "Pixel") Flat.picture =
      .ok [7, 0, 1, starkPrime - 2, 1, 0, 171, 1, 0, 0, 1] :=
    eq_ok_of_toOption (by decide +kernel)
  have hevents : Event.encode Model.canvas starkPrime (.message "Pixel") Flat.picture =
      .ok pictureEvents := eq_ok_of_toOption (by decide +kernel)
  obtain ⟨hf, he⟩ := encodings_delimited (.definitions Model.ofText_canvasText)
    Model.length_canvasText_lt (by decide : (Ty.message "Pixel").Declared Model.canvas)
    (by decide : (2 : Int) ^ 248 < starkPrime) Flat.fits_picture
  refine ⟨?_, ?_, ?_⟩
  · refine (hf _ hflat).cut _ ⟨[.int 1], rfl⟩ fun h => ?_
    have := congrArg List.length h
    simp at this
  · refine (he _ hevents).cut _ ((List.take_prefix ..).map _) fun h => ?_
    have := congrArg List.length h
    simp [pictureEvents] at this
  · exact (hf _ hflat).extended [.int 1] (List.cons_ne_nil _ _)

end FeltRelay.Codec
