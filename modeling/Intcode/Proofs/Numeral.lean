import Intcode.Text.Numeral
import Mathlib.Tactic.Ring

namespace Intcode

def Word.Fits (z : Int) : Prop := -9223372036854775808 ≤ z ∧ z ≤ 9223372036854775807

instance (z : Int) : Decidable (Word.Fits z) := inferInstanceAs (Decidable (_ ∧ _))

theorem Word.fits_toInt (w : Word) : Fits w.toInt := ⟨le_toInt w, toInt_le w⟩

theorem Word.toInt_ofInt_of_fits {z : Int} (h : Fits z) : (Int64.ofInt z).toInt = z :=
  Int64.toInt_ofInt_of_le h.1 (Int.lt_add_one_of_le h.2)

theorem Word.not_fits_of_ofInt?_eq_none {z : Int} (h : ofInt? z = none) : ¬Fits z := by
  intro hz
  obtain ⟨hl, hu⟩ := hz
  have hz := ofInt?_eq_none_iff.mp h
  omega

namespace Numeral

theorem le_ofDigitChars (ds : List Char) (n : Nat) : n ≤ Nat.ofDigitChars 10 ds n := by
  induction ds generalizing n with
  | nil => rw [Nat.ofDigitChars_nil]
  | cons d ds ih =>
    have hn := ih (10 * n + (d.toNat - '0'.toNat))
    rw [Nat.ofDigitChars_cons]
    omega

/-- Once a number does not fit, no larger one does. -/
theorem not_fits_of_le {sign : Int} (hs : sign = 1 ∨ sign = -1) {a b : Nat} (hab : a ≤ b)
    (ha : ¬Word.Fits (sign * a)) : ¬Word.Fits (sign * b) := by
  unfold Word.Fits at ha ⊢
  rcases hs with rfl | rfl <;> omega

/-- The digits read before `ds` have the value `n`. It is enough to look whether the last value fits,
since none before it is larger. -/
theorem readDigits_eq_ok_iff {sign : Int} (hs : sign = 1 ∨ sign = -1) {ds : List Char} {n : Nat}
    (hn : Word.Fits (sign * n)) {z : Int} : readDigits sign (sign * n) ds = .ok z ↔
      ds.all Char.isDigit ∧ z = sign * (Nat.ofDigitChars 10 ds n : Nat) ∧ Word.Fits z := by
  induction ds generalizing n with
  | nil =>
    rw [readDigits, Nat.ofDigitChars_nil]
    constructor
    · intro h
      cases h
      exact ⟨rfl, rfl, hn⟩
    · intro h
      rw [h.2.1]
  | cons d ds ih =>
    rw [readDigits, Nat.ofDigitChars_cons, List.all_cons]
    by_cases hd : d.isDigit
    · have hnext : 10 * (sign * n) + sign * (d.toNat - '0'.toNat : Nat) =
          sign * (10 * n + (d.toNat - '0'.toNat) : Nat) := by
        push_cast
        ring
      rw [if_pos hd, hd, Bool.true_and]
      dsimp only
      rw [hnext]
      generalize 10 * n + (d.toNat - '0'.toNat) = next
      by_cases hf : Word.Fits (sign * next)
      · rw [if_neg (by have := hf.1; omega), if_neg (by have := hf.2; omega), ih hf]
      · constructor
        · intro h
          split at h
          · cases h
          · split at h
            · cases h
            · exact absurd ⟨by omega, by omega⟩ hf
        · intro h
          obtain ⟨-, rfl, hz⟩ := h
          exact absurd hz (not_fits_of_le hs (le_ofDigitChars ds next) hf)
    · rw [if_neg hd]
      simp [hd]

theorem readSigned_eq_ok_iff {sign : Int} (hs : sign = 1 ∨ sign = -1) {ds : List Char}
    {w : Word} : readSigned sign ds = .ok w ↔
      ∃ n : Nat, natValue? ds = some n ∧ sign * n = w.toInt := by
  unfold readSigned natValue?
  by_cases hds : ds = []
  · simp [hds]
  · rw [if_neg hds]
    have h0 : Word.Fits (sign * (0 : Nat)) := by
      rw [Int.ofNat_zero, Int.mul_zero]
      exact ⟨by decide, by decide⟩
    have hread {z : Int} : readDigits sign 0 ds = .ok z ↔
        ds.all Char.isDigit ∧ z = sign * (Nat.ofDigitChars 10 ds 0 : Nat) ∧ Word.Fits z := by
      have h := @readDigits_eq_ok_iff sign hs ds 0 h0 z
      rwa [Int.ofNat_zero, Int.mul_zero] at h
    constructor
    · intro h
      cases hr : readDigits sign 0 ds with
      | error e => rw [hr] at h; cases h
      | ok z =>
        rw [hr] at h
        cases h
        obtain ⟨hd, rfl, hz⟩ := hread.mp hr
        exact ⟨_, if_pos ⟨hds, hd⟩, (Word.toInt_ofInt_of_fits hz).symm⟩
    · intro h
      obtain ⟨n, hn, hw⟩ := h
      split at hn
      · rename_i hd
        cases hn
        rw [hread.mpr ⟨hd.2, hw.symm, w.fits_toInt⟩]
        exact congrArg Except.ok (Int64.ofInt_toInt w)
      · cases hn

/-- A text reads as a word exactly if it is the numeral of a number that is a word. -/
theorem read_eq_ok_iff {cs : List Char} {w : Word} : read cs = .ok w ↔ value? cs = some w.toInt := by
  unfold read value?
  split
  · simp [natValue?]
  · rw [readSigned_eq_ok_iff (.inl rfl)]
    simp [Option.bind_eq_some_iff]
  · rw [readSigned_eq_ok_iff (.inr rfl)]
    simp [Option.bind_eq_some_iff]
  · rw [readSigned_eq_ok_iff (.inl rfl)]
    simp [Option.bind_eq_some_iff]

end Numeral

end Intcode
