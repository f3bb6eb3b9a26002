namespace Intcode

/-- The content of a cell, a signed 64-bit integer. -/
abbrev Word := Int64

namespace Word

/-- The word that stands for `z`, if `z` is in range. -/
def ofInt? (z : Int) : Option Word :=
  if -9223372036854775808 ≤ z ∧ z ≤ 9223372036854775807 then some (Int64.ofInt z) else none

theorem le_toInt (w : Word) : -9223372036854775808 ≤ w.toInt := Int64.le_toInt w

theorem toInt_le (w : Word) : w.toInt ≤ 9223372036854775807 :=
  Int.le_of_lt_add_one (Int64.toInt_lt w)

theorem ofInt?_eq_some_iff {z : Int} {w : Word} : ofInt? z = some w ↔ w.toInt = z := by
  constructor
  · intro h
    unfold ofInt? at h
    split at h
    · next hz =>
      cases h
      exact Int64.toInt_ofInt_of_le hz.1 (Int.lt_add_one_of_le hz.2)
    · cases h
  · rintro rfl
    rw [ofInt?, if_pos ⟨le_toInt w, toInt_le w⟩, Int64.ofInt_toInt]

theorem ofInt?_eq_none_iff {z : Int} :
    ofInt? z = none ↔ z < -9223372036854775808 ∨ 9223372036854775807 < z := by
  unfold ofInt?
  split <;> simp <;> omega

@[simp] theorem ofInt?_toInt (w : Word) : ofInt? w.toInt = some w := ofInt?_eq_some_iff.mpr rfl

end Word

end Intcode
