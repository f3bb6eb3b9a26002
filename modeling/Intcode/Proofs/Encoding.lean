import Intcode.Proofs.Decode
import Mathlib.Tactic.Ring

namespace Intcode

theorem Opcode.ofNumber?_eq_some_iff {z : Int} {c : Opcode} :
    ofNumber? z = some c ↔ z = c.number := by
  constructor
  · intro h
    unfold ofNumber? at h
    split at h <;> cases h <;> rfl
  · intro h
    subst h
    exact c.ofNumber?_number

theorem Opcode.number_lt (c : Opcode) : c.number < 100 := by
  rcases c with (_ | _ | _ | _) | _ | _ | (_ | _) | _ | _ <;> decide

theorem Opcode.arity_le (c : Opcode) : c.arity ≤ 3 := by cases c <;> simp [arity]

theorem Mode.digit_lt (mode : Mode) : mode.digit < 10 := by cases mode <;> decide

/-- The cells from `pos` on, `n` of them. -/
def Store.slice (s : Store) (pos n : Nat) : List Word :=
  (List.range n).map fun k ↦ s.get (pos + k)

namespace Instruction

/-- The lower digits of a number are the lowest of them and those that are left without them. -/
theorem emod_mul_eq (z : Int) {b c : Int} (hb : 0 < b) (hc : 0 < c) :
    z % (b * c) = z % b + b * (z / b % c) := by
  have hz := Int.mul_ediv_add_emod z b
  have hq := Int.mul_ediv_add_emod (z / b) c
  have h₀ := Int.emod_nonneg z hb.ne'
  have h₁ := Int.emod_lt_of_pos z hb
  have h₂ := Int.emod_nonneg (z / b) hc.ne'
  have h₃ := Int.emod_lt_of_pos (z / b) hc
  refine ((Int.ediv_emod_unique (q := z / b / c) (Int.mul_pos hb hc)).mpr ⟨?_, ?_, ?_⟩).2
  · calc z % b + b * (z / b % c) + b * c * (z / b / c)
        = b * (c * (z / b / c) + z / b % c) + z % b := by ring
      _ = z := by rw [hq, hz]
  · have := Int.mul_nonneg hb.le h₂
    omega
  · have h₄ : b * (z / b % c + 1) ≤ b * c := Int.mul_le_mul_of_nonneg_left h₃ hb.le
    rw [Int.mul_add, Int.mul_one] at h₄
    omega

theorem modeDigits_lt (os : List Operand) : modeDigits os < 10 ^ os.length := by
  induction os with
  | nil => exact Nat.one_pos
  | cons o os ih =>
    have hd := o.mode.digit_lt
    rw [modeDigits, List.length_cons, Nat.pow_succ]
    omega

/-- The digits of a number are the modes of operands exactly if they are those of their mode
digits. -/
theorem digits_eq_modes_iff {os : List Operand} {z : Int} :
    (∀ k o, os[k]? = some o → digitAt z k = o.mode.digit) ↔
      z % 10 ^ os.length = (modeDigits os : Nat) := by
  induction os generalizing z with
  | nil => simp [modeDigits]
  | cons o os ih =>
    have hpos : (0 : Int) < 10 ^ os.length := pow_pos (by decide) _
    have hd := o.mode.digit_lt
    have h₀ := Int.emod_nonneg z (by decide : (10 : Int) ≠ 0)
    have h₁ := Int.emod_lt_of_pos z (by decide : (0 : Int) < 10)
    have hcons := @forall_getElem?_cons _ (fun k o ↦ digitAt z k = (o.mode.digit : Int)) o os
    rw [hcons, List.length_cons, pow_succ', emod_mul_eq z (by decide) hpos, modeDigits]
    simp only [digitAt]
    rw [ih]
    push_cast
    omega

theorem toInt_word (i : Instruction) :
    i.word.toInt = (i.opcode.number + 100 * modeDigits i.operands : Nat) := by
  have hm := modeDigits_lt i.operands
  have hl : i.operands.length ≤ 3 := i.length_operands ▸ i.opcode.arity_le
  have hp : 10 ^ i.operands.length ≤ 10 ^ 3 := Nat.pow_le_pow_right (by decide) hl
  have hn := i.opcode.number_lt
  exact Int64.toInt_ofNat_of_lt (by omega)

theorem word_lt (i : Instruction) : i.word.toInt < 10 ^ (i.opcode.arity + 2) := by
  have hm := modeDigits_lt i.operands
  have hn := i.opcode.number_lt
  rw [toInt_word, ← length_operands, pow_add]
  norm_cast
  omega

theorem word_nonneg (i : Instruction) : 0 ≤ i.word.toInt := by
  rw [toInt_word]
  exact Int.natCast_nonneg _

theorem holds_iff {s : Store} {pos : Nat} {i : Instruction} :
    (∀ k o, i.operands[k]? = some o → Holds s pos k o) ↔
      i.operands.map Operand.raw = s.slice (pos + 1) i.opcode.arity ∧
        ∀ k o, i.operands[k]? = some o → digitAt ((s.get pos).toInt / 100) k = o.mode.digit := by
  have hraw : i.operands.map Operand.raw = s.slice (pos + 1) i.opcode.arity ↔
      ∀ k o, i.operands[k]? = some o → o.raw = s.get (pos + 1 + k) := by
    rw [← length_operands]
    constructor
    · intro h k o hk
      have hr := congrArg (·[k]?) h
      obtain ⟨hl, rfl⟩ := List.getElem?_eq_some_iff.mp hk
      simpa [Store.slice, hl] using hr
    · intro h
      refine List.ext_getElem (by simp [Store.slice]) fun k hk hk' ↦ ?_
      rw [List.length_map] at hk
      simpa [Store.slice] using h k _ (List.getElem?_eq_getElem hk)
  have hdigit (k : Nat) (z : Int) : digitAt z (k + 2) = digitAt (z / 100) k := by
    rw [digitAt, digitAt, Int.ediv_ediv_of_nonneg (by decide)]
    rfl
  rw [hraw]
  simp only [Holds, hdigit]
  exact ⟨fun h ↦ ⟨fun k o hk ↦ (h k o hk).1, fun k o hk ↦ (h k o hk).2⟩,
    fun h k o hk ↦ ⟨h.1 k o hk, h.2 k o hk⟩⟩

/-- What is decoded is what would be encoded in the same cells, up to the digits that are not
used. -/
theorem decode_iff_word {s : Store} {pos : Nat} {i : Instruction} :
    decode s pos = .ok i ↔ pos + i.width ≤ s.size ∧
      (s.get pos).toInt % 10 ^ (i.opcode.arity + 2) = i.word.toInt ∧
        i.operands.map Operand.raw = s.slice (pos + 1) i.opcode.arity := by
  generalize hz : (s.get pos).toInt = z
  have hpow : (10 : Int) ^ (i.opcode.arity + 2) = 100 * 10 ^ i.operands.length := by
    rw [length_operands, pow_add]
    ring
  have hpos : (0 : Int) < 10 ^ i.operands.length := pow_pos (by decide) _
  have h₀ := Int.emod_nonneg z (by decide : (100 : Int) ≠ 0)
  have h₁ := Int.emod_lt_of_pos z (by decide : (0 : Int) < 100)
  have hn := i.opcode.number_lt
  rw [decode_eq_ok_iff, holds_iff, hz, Opcode.ofNumber?_eq_some_iff, digits_eq_modes_iff, hpow,
    emod_mul_eq z (by decide) hpos, toInt_word]
  push_cast
  constructor
  · intro h
    obtain ⟨hc, hw, hr, hm⟩ := h
    exact ⟨hw, by rw [hc, hm], hr⟩
  · intro h
    obtain ⟨hw, hm, hr⟩ := h
    exact ⟨by omega, hw, hr, by omega⟩

theorem word_emod (i : Instruction) (k : Int) :
    (i.word.toInt + k * 10 ^ (i.opcode.arity + 2)) % 10 ^ (i.opcode.arity + 2) = i.word.toInt := by
  rw [Int.add_mul_emod_self_right, Int.emod_eq_of_lt i.word_nonneg i.word_lt]

/-- What is encoded is decoded again, whatever the digits are that are not used, and what is decoded
is encoded as the lowest digits of its word, with which it is decoded again. -/
theorem decode_encode :
    (∀ (i : Instruction) (s : Store) (pos : Nat) (k : Int), pos + i.width ≤ s.size →
      (s.get pos).toInt = i.word.toInt + k * 10 ^ (i.opcode.arity + 2) →
      s.slice (pos + 1) i.opcode.arity = i.operands.map Operand.raw → decode s pos = .ok i) ∧
    ∀ (i : Instruction) (s : Store) (pos : Nat), decode s pos = .ok i →
      i.word.toInt = (s.get pos).toInt % 10 ^ (i.opcode.arity + 2) ∧
      i.operands.map Operand.raw = s.slice (pos + 1) i.opcode.arity ∧
      decode (s.set pos i.word) pos = .ok i := by
  refine ⟨fun i s pos k hw hz hr ↦ ?_, fun i s pos hd ↦ ?_⟩
  · exact decode_iff_word.mpr ⟨hw, by rw [hz, word_emod], hr.symm⟩
  · obtain ⟨hw, hz, hr⟩ := decode_iff_word.mp hd
    refine ⟨hz.symm, hr, decode_iff_word.mpr ⟨by rwa [Store.size_set], ?_, ?_⟩⟩
    · rw [Store.get_set, if_pos rfl]
      have hm := i.word_emod 0
      rwa [Int.zero_mul, Int.add_zero] at hm
    · rw [hr, Store.slice, Store.slice]
      refine List.map_congr_left fun k _ ↦ ?_
      rw [Store.get_set, if_neg (by omega)]

/-- A jump whose word is negative. Its lowest four digits are those of 1205. -/
theorem decode_encode_of_negative :
    let i : Instruction := .jumpIf true ⟨-1, .relative⟩ ⟨7, .immediate⟩
    let s : Store := .ofList [99, -9223372036854768795, -1, 7]
    decode s 1 = .ok i ∧ i.word.toInt = (s.get 1).toInt % 10 ^ 4 ∧
      decode (s.set 1 i.word) 1 = .ok i := by
  intro i s
  have hd : decode s 1 = .ok i :=
    decode_encode.1 i s 1 (-922337203685477) (by decide) (by decide) (by decide)
  obtain ⟨hw, -, hs⟩ := decode_encode.2 i s 1 hd
  exact ⟨hd, hw, hs⟩

end Instruction

end Intcode
