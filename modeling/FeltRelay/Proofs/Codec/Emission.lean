import FeltRelay.Codec.Emission
import FeltRelay.Proofs.Result

/-!
# Emissions that were not stopped

What two emissions write one after the other is what both write.
-/

namespace FeltRelay.Codec.Emission

variable {α : Type}

theorem result_followedBy_eq_ok_iff {e : Emission α} {next : Unit → Emission α} {zs : List α} :
    (e.followedBy next).result = .ok zs ↔
      ∃ xs ys, e.result = .ok xs ∧ (next ()).result = .ok ys ∧ xs ++ ys = zs := by
  rw [result_followedBy, bind_eq_ok_iff]
  constructor
  · rintro ⟨xs, hxs, h⟩
    obtain ⟨ys, hys, hret⟩ := bind_eq_ok_iff.1 h
    cases hret
    exact ⟨xs, ys, hxs, hys, rfl⟩
  · rintro ⟨xs, ys, hxs, hys, rfl⟩
    refine ⟨xs, hxs, ?_⟩
    rw [hys]
    rfl

theorem result_followedBy_of_ok {e : Emission α} {next : Unit → Emission α} {xs ys : List α}
    (he : e.result = .ok xs) (hn : (next ()).result = .ok ys) :
    (e.followedBy next).result = .ok (xs ++ ys) :=
  result_followedBy_eq_ok_iff.2 ⟨xs, ys, he, hn, rfl⟩

/-- What is written first stands in front. -/
theorem result_write_followedBy (items : List α) (next : Unit → Emission α) :
    ((write items).followedBy next).result = (next ()).result.map (items ++ ·) := by
  rw [result_followedBy]
  cases (next ()).result with
  | error f => rfl
  | ok ys => rfl

theorem eq_of_result_write {items xs : List α} (h : (write items).result = .ok xs) : xs = items := by
  cases h
  rfl

end FeltRelay.Codec.Emission
