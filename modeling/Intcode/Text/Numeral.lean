import Intcode.Text.Layout
import Intcode.Word

namespace Intcode.Numeral

def ofNat (n : Nat) : List Char := Nat.toDigits 10 n

def ofInt : Int → List Char
  | .ofNat n => ofNat n
  | .negSucc n => '-' :: ofNat (n + 1)

def text (n : Nat) : String := String.ofList (ofNat n)

/-- The number that a text of one or more digits denotes. -/
def natValue? (ds : List Char) : Option Nat :=
  if ds ≠ [] ∧ ds.all Char.isDigit then some (Nat.ofDigitChars 10 ds 0) else none

/-- The number that a numeral denotes: digits, after at most one sign. -/
def value? : List Char → Option Int
  | '+' :: ds => (natValue? ds).map fun n ↦ (n : Int)
  | '-' :: ds => (natValue? ds).map fun n ↦ -(n : Int)
  | ds => (natValue? ds).map fun n ↦ (n : Int)

theorem natValue?_ofNat (n : Nat) : natValue? (ofNat n) = some n := by
  have hd : (ofNat n).all Char.isDigit := by
    rw [List.all_eq_true]
    intro c hc
    exact Nat.isDigit_of_mem_toDigits (by decide) (by decide) hc
  have hn : ofNat n ≠ [] := Nat.toDigits_ne_nil
  rw [natValue?, if_pos ⟨hn, hd⟩, ofNat, Nat.ofDigitChars_toDigits (by decide) (by decide)]

theorem value?_of_isDigit {c : Char} {cs : List Char} (h : c.isDigit) :
    value? (c :: cs) = (natValue? (c :: cs)).map fun n ↦ (n : Int) := by
  unfold value?
  split
  · next h' => cases h'; exact absurd h (by decide)
  · next h' => cases h'; exact absurd h (by decide)
  · rfl

/-- What is written reads back. -/
theorem value?_ofInt (z : Int) : value? (ofInt z) = some z := by
  cases z with
  | ofNat n =>
    have hn : ofNat n ≠ [] := Nat.toDigits_ne_nil
    obtain ⟨c, cs, he⟩ := List.exists_cons_of_ne_nil hn
    have hc : c.isDigit := Nat.isDigit_of_mem_toDigits (b := 10) (n := n) (by decide) (by decide)
      (show c ∈ ofNat n by simp [he])
    rw [ofInt, he, value?_of_isDigit hc, ← he, natValue?_ofNat]
    rfl
  | negSucc n =>
    simp only [ofInt, value?, natValue?_ofNat]
    rfl

/-- Why a text is not the numeral of a word. -/
inductive Flaw
  | empty
  | badDigit
  | tooLarge
  | tooSmall
deriving DecidableEq, Repr

def Flaw.text : Flaw → String
  | .empty => "cannot parse integer from empty string"
  | .badDigit => "invalid digit found in string"
  | .tooLarge => "number too large to fit in target type"
  | .tooSmall => "number too small to fit in target type"

/-- Reads digits on top of the value `z` of those before them. A character that is no digit is
noticed before the value it would have led to. -/
def readDigits (sign : Int) (z : Int) : List Char → Except Flaw Int
  | [] => .ok z
  | d :: ds =>
    if d.isDigit then
      let next := 10 * z + sign * (d.toNat - '0'.toNat : Nat)
      if next < -9223372036854775808 then .error .tooSmall
      else if 9223372036854775807 < next then .error .tooLarge
      else readDigits sign next ds
    else .error .badDigit

def readSigned (sign : Int) (ds : List Char) : Except Flaw Word :=
  if ds = [] then .error .badDigit else (readDigits sign 0 ds).map Int64.ofInt

def read : List Char → Except Flaw Word
  | [] => .error .empty
  | '+' :: ds => readSigned 1 ds
  | '-' :: ds => readSigned (-1) ds
  | ds => readSigned 1 ds

end Numeral

def Word.text (w : Word) : String := String.ofList (Numeral.ofInt w.toInt)

def Word.listText (ws : List Word) : String := Text.bracketed (ws.map Word.text)

end Intcode
