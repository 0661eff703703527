import Calculator.Proofs.Binary64.PrintedPlaces
import Calculator.Proofs.Decimal.Places
import Calculator.Proofs.Outcome
import Calculator.Proofs.Number

/-!
# Places of printed results

An integer is written without a point, and a float with the digits of the decimal that stands for its
value. The value has been rounded, so that this decimal has no digit behind the rounded place.
-/

namespace Calculator

open Binary64

theorem placesWritten_minus {negative : Prop} [Decidable negative] (text : List Char) :
    placesWritten ((if negative then ['-'] else []) ++ text) = placesWritten text := by
  refine placesWritten_append ?_ text
  split <;> decide

theorem not_mem_minus {negative : Prop} [Decidable negative] {text : List Char} (absent : '.' ∉ text) :
    '.' ∉ (if negative then ['-'] else []) ++ text := by
  rw [List.mem_append, not_or]
  exact ⟨by split <;> decide, absent⟩

/-- The text of a number that stands for a rounded value. -/
theorem placesWritten_text_ofBinary64_le {places : Nat} {x : Binary64} (few : places ≤ 22)
    (settled : Settled places x) (finite : (Number.ofBinary64 x).toBinary64.isFinite = true) :
    placesWritten (Number.ofBinary64 x).text ≤ places ∧
      (places = 0 → '.' ∉ (Number.ofBinary64 x).text) := by
  rcases Number.ofBinary64_cases x with same | ⟨n, whole, -⟩
  · rw [same] at finite ⊢
    cases x with
    | nan => cases finite
    | infinite s => cases finite
    | finite s m =>
      obtain ⟨k, units⟩ := exists_natCast_of_settled few settled
      obtain ⟨short, point⟩ := Decimal.placesWritten_text_le units
      rw [Number.text, Binary64.text, placesWritten_minus]
      exact ⟨short, fun zero => not_mem_minus (point zero)⟩
  · have digits := not_mem_of_all_isDigit (Decimal.all_isDigit_toDigits n.natAbs)
    rw [whole, Number.text, placesWritten_minus, placesWritten_of_not_mem digits]
    exact ⟨Nat.zero_le _, fun _ => not_mem_minus digits⟩

example : placesWritten (Number.ofBinary64 (nearest false (-3 / 8))).text = 3 := by decide +kernel

/-- **Printed places.** The text of a finite result has no more digits after its point than were asked
for, and it has no point if none were. -/
theorem placesWritten_toString_le {requested : Int} {source : String} {n : Number}
    (few : requested ≤ 22) (evaluated : evaluate (placesOf requested) source = .ok n)
    (finite : n.toBinary64.isFinite = true) :
    (placesWritten (toString n).toList : Int) ≤ max requested 0 ∧
      (max requested 0 = 0 → '.' ∉ (toString n).toList) := by
  obtain ⟨tokens, x, -, -, rfl⟩ := evaluate_eq_ok_iff.1 evaluated
  have written : (toString (Number.ofBinary64 (x.roundToPlaces (placesOf requested)))).toList =
      (Number.ofBinary64 (x.roundToPlaces (placesOf requested))).text := String.toList_ofList
  have places : (placesOf requested : Int) = max requested 0 := Int.toNat_eq_max requested
  have few' : placesOf requested ≤ 22 := by omega
  have shown := placesWritten_text_ofBinary64_le few' (settled_roundToPlaces _ x) finite
  rw [written, ← places]
  exact_mod_cast shown

theorem placesWritten_toString_of_two_thirds :
    (3 : Int) ≤ 22 ∧ evaluate (placesOf 3) "2/3" = .ok (.float (nearest false (667 / 1000))) ∧
      (nearest false (667 / 1000)).isFinite = true ∧
      toString (Number.float (nearest false (667 / 1000))) = "0.667" ∧
      placesWritten "0.667".toList = 3 ∧ (placesWritten "0.667".toList : Int) ≤ max 3 0 := by
  have evaluated : evaluate (placesOf 3) "2/3" = .ok (.float (nearest false (667 / 1000))) := by
    decide +kernel
  have finite : (nearest false (667 / 1000)).isFinite = true := by decide +kernel
  have written : toString (Number.float (nearest false (667 / 1000))) = "0.667" := by
    decide +kernel
  have shown := (placesWritten_toString_le (by decide) evaluated finite).1
  rw [written] at shown
  exact ⟨by decide, evaluated, finite, written, by decide +kernel, shown⟩

end Calculator
