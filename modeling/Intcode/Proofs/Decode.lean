import Intcode.Instruction.Decode
import Mathlib.Algebra.Order.Ring.Int
import Mathlib.Tactic.Choose

namespace Intcode

theorem bind_eq_ok_iff {ε α β : Type} {x : Except ε α} {f : α → Except ε β} {b : β} :
    (x >>= f) = .ok b ↔ ∃ a, x = .ok a ∧ f a = .ok b := by
  constructor
  · intro h
    cases x with
    | error e => cases h
    | ok a => exact ⟨a, rfl, h⟩
  · intro h
    obtain ⟨a, rfl, hf⟩ := h
    exact hf

theorem mapError_eq_ok_iff {ε α : Type} {x : Except ε α} {f : ε → ε} {a : α} :
    x.mapError f = .ok a ↔ x = .ok a := by
  cases x <;> simp [Except.mapError]

theorem forall_getElem?_cons {α : Type} {P : Nat → α → Prop} {a : α} {as : List α} :
    (∀ k b, (a :: as)[k]? = some b → P k b) ↔
      P 0 a ∧ ∀ k b, as[k]? = some b → P (k + 1) b := by
  constructor
  · exact fun h ↦ ⟨h 0 a rfl, fun k b hk ↦ h (k + 1) b hk⟩
  · intro h k b hk
    cases k with
    | zero => cases hk; exact h.1
    | succ k => exact h.2 k b hk

theorem Word.toInt_ofInt_of_digits {d : Int} (h₀ : 0 ≤ d) (h : d < 100) :
    (Int64.ofInt d).toInt = d := by
  have hl : -9223372036854775808 ≤ d := by omega
  have hu : d < 9223372036854775808 := by omega
  exact Int64.toInt_ofInt_of_le hl hu

theorem Mode.ofDigit?_eq_some_iff {d : Int} {mode : Mode} :
    Mode.ofDigit? d = some mode ↔ d = mode.digit := by
  constructor
  · intro h
    unfold Mode.ofDigit? at h
    split at h <;> cases h <;> rfl
  · intro h
    subst h
    exact mode.ofDigit?_digit

theorem Mode.exists_digit_iff {d : Int} :
    (∃ mode : Mode, d = mode.digit) ↔ d = 0 ∨ d = 1 ∨ d = 2 := by
  constructor
  · intro h
    obtain ⟨mode, rfl⟩ := h
    cases mode <;> decide
  · intro h
    rcases h with h | h | h
    · exact ⟨.position, h⟩
    · exact ⟨.immediate, h⟩
    · exact ⟨.relative, h⟩

theorem Mode.ofWord_eq_ok_iff {w : Word} {mode : Mode} :
    Mode.ofWord w = .ok mode ↔ w.toInt = mode.digit := by
  rw [← ofDigit?_eq_some_iff, Mode.ofWord]
  cases Mode.ofDigit? w.toInt <;> simp

theorem Opcode.ofWord_eq_ok_iff {w : Word} {c : Opcode} :
    Opcode.ofWord w = .ok c ↔ Opcode.ofNumber? w.toInt = some c := by
  rw [Opcode.ofWord]
  cases Opcode.ofNumber? w.toInt <;> simp

namespace Instruction

theorem digitAt_eq (z : Int) (place : Nat) : digitAt z place = z / 10 ^ place % 10 := by
  induction place generalizing z with
  | zero => rw [digitAt, pow_zero, Int.ediv_one]
  | succ place ih => rw [digitAt, ih, Int.ediv_ediv_of_nonneg (by decide), pow_succ']

theorem digitAt_bounds (z : Int) (place : Nat) : 0 ≤ digitAt z place ∧ digitAt z place < 10 := by
  rw [digitAt_eq]
  exact ⟨Int.emod_nonneg _ (by decide), Int.emod_lt_of_pos _ (by decide)⟩

/-- The operand in slot `k` of the instruction at `pos`, as the digits of the instruction word have
it. -/
def Holds (s : Store) (pos k : Nat) (o : Operand) : Prop :=
  o.raw = s.get (pos + 1 + k) ∧ digitAt (s.get pos).toInt (k + 2) = o.mode.digit

theorem operandAt_eq_ok_iff {s : Store} {pos k : Nat} {o : Operand} :
    operandAt s pos k = .ok o ↔ Holds s pos k o := by
  obtain ⟨h₀, h⟩ := digitAt_bounds (s.get pos).toInt (k + 2)
  have hw (mode : Mode) : Mode.ofWord (Int64.ofInt (digitAt (s.get pos).toInt (k + 2))) = .ok mode ↔
      digitAt (s.get pos).toInt (k + 2) = mode.digit := by
    rw [Mode.ofWord_eq_ok_iff, Word.toInt_ofInt_of_digits h₀ (by omega)]
  constructor
  · intro ho
    unfold operandAt at ho
    cases hm : Mode.ofWord (Int64.ofInt (digitAt (s.get pos).toInt (k + 2))) with
    | error e => rw [hm] at ho; cases ho
    | ok mode => rw [hm] at ho; cases ho; exact ⟨rfl, (hw mode).mp hm⟩
  · intro h
    obtain ⟨hr, hd⟩ := h
    rw [operandAt, (hw o.mode).mpr hd, ← hr]
    rfl

theorem withOpcode_eq_ok_iff {s : Store} {pos : Nat} {c : Opcode} {i : Instruction} :
    withOpcode s pos c = .ok i ↔
      i.opcode = c ∧ ∀ k o, i.operands[k]? = some o → Holds s pos k o := by
  constructor
  · intro h
    cases c <;>
      simp only [withOpcode, bind_eq_ok_iff, operandAt_eq_ok_iff, pure, Except.pure,
        Except.ok.injEq] at h
    case binary op =>
      obtain ⟨left, hl, right, hr, dest, hd, rfl⟩ := h
      exact ⟨rfl, by simpa [operands, forall_getElem?_cons] using ⟨hl, hr, hd⟩⟩
    case jumpIf on =>
      obtain ⟨test, ht, dest, hd, rfl⟩ := h
      exact ⟨rfl, by simpa [operands, forall_getElem?_cons] using ⟨ht, hd⟩⟩
    case halt =>
      subst h
      exact ⟨rfl, by simp [operands]⟩
    all_goals
      obtain ⟨o, ho, rfl⟩ := h
      exact ⟨rfl, by simpa [operands, forall_getElem?_cons] using ho⟩
  · intro h
    obtain ⟨rfl, h⟩ := h
    cases i <;> simp only [operands, forall_getElem?_cons] at h <;>
      simp only [opcode, withOpcode, bind_eq_ok_iff, operandAt_eq_ok_iff, pure, Except.pure,
        Except.ok.injEq]
    case binary op left right dest => exact ⟨left, h.1, right, h.2.1, dest, h.2.2.1, rfl⟩
    case jumpIf on test dest => exact ⟨test, h.1, dest, h.2.1, rfl⟩
    all_goals exact ⟨_, h.1, rfl⟩

/-- Decoding succeeds on an opcode that is known, operands inside the image, and modes that are
known, and there is one instruction that they make up. -/
theorem decode_eq_ok_iff {s : Store} {pos : Nat} {i : Instruction} :
    decode s pos = .ok i ↔ Opcode.ofNumber? ((s.get pos).toInt % 100) = some i.opcode ∧
      pos + i.width ≤ s.size ∧ ∀ k o, i.operands[k]? = some o → Holds s pos k o := by
  have h₀ : 0 ≤ (s.get pos).toInt % 100 := Int.emod_nonneg _ (by decide)
  have h : (s.get pos).toInt % 100 < 100 := Int.emod_lt_of_pos _ (by decide)
  rw [decode, mapError_eq_ok_iff, bind_eq_ok_iff]
  simp only [Opcode.ofWord_eq_ok_iff, Word.toInt_ofInt_of_digits h₀ h]
  constructor
  · intro hd
    obtain ⟨c, hc, hi⟩ := hd
    split at hi
    · rename_i hw
      obtain ⟨rfl, ho⟩ := withOpcode_eq_ok_iff.mp hi
      exact ⟨hc, hw, ho⟩
    · cases hi
  · intro hd
    obtain ⟨hc, hw, ho⟩ := hd
    refine ⟨i.opcode, hc, ?_⟩
    exact (if_pos hw).trans (withOpcode_eq_ok_iff.mpr ⟨rfl, ho⟩)

def ofOperands (operand : Nat → Operand) : Opcode → Instruction
  | .binary op => .binary op (operand 0) (operand 1) (operand 2)
  | .input => .input (operand 0)
  | .output => .output (operand 0)
  | .jumpIf on => .jumpIf on (operand 0) (operand 1)
  | .adjustBase => .adjustBase (operand 0)
  | .halt => .halt

theorem opcode_ofOperands (operand : Nat → Operand) (c : Opcode) :
    (ofOperands operand c).opcode = c := by
  cases c <;> rfl

theorem operands_ofOperands (operand : Nat → Operand) (c : Opcode) :
    (ofOperands operand c).operands = (List.range c.arity).map operand := by
  cases c <;> rfl

theorem exists_decode_iff {s : Store} {pos : Nat} : (∃ i, decode s pos = .ok i) ↔
    ∃ c, Opcode.ofNumber? ((s.get pos).toInt % 100) = some c ∧ pos + c.width ≤ s.size ∧
      ∀ k < c.arity, ∃ mode : Mode, digitAt (s.get pos).toInt (k + 2) = mode.digit := by
  constructor
  · intro h
    obtain ⟨i, hi⟩ := h
    obtain ⟨hc, hw, ho⟩ := decode_eq_ok_iff.mp hi
    refine ⟨i.opcode, hc, hw, fun k hk ↦ ?_⟩
    rw [← length_operands] at hk
    exact ⟨_, (ho k _ (List.getElem?_eq_getElem hk)).2⟩
  · intro h
    obtain ⟨c, hc, hw, hm⟩ := h
    have : Nonempty Mode := ⟨.position⟩
    choose! mode hmode using hm
    refine ⟨ofOperands (fun k ↦ { raw := s.get (pos + 1 + k), mode := mode k }) c, ?_⟩
    rw [decode_eq_ok_iff, width, opcode_ofOperands, operands_ofOperands]
    refine ⟨hc, hw, fun k o ho ↦ ?_⟩
    rw [List.getElem?_map, Option.map_eq_some_iff] at ho
    obtain ⟨j, hj, rfl⟩ := ho
    obtain ⟨hk, rfl⟩ := List.getElem?_eq_some_iff.mp hj
    rw [List.length_range] at hk
    rw [List.getElem_range]
    exact ⟨rfl, hmode k hk⟩

end Instruction

end Intcode
