import Intcode.Proofs.Numeral
import Mathlib.Data.List.Infix

namespace Intcode.Numeral

/-- The factor that the sign in front of the digits stands for. -/
def sign (cs : List Char) : Int := if cs.head? = some '-' then -1 else 1

/-- The text behind its sign, if it has one. -/
def unsigned : List Char → List Char
  | '+' :: ds => ds
  | '-' :: ds => ds
  | ds => ds

/-- The number that the digits denote under a sign. -/
def signed (sign : Int) (ds : List Char) : Int := sign * (Nat.ofDigitChars 10 ds 0 : Nat)

/-- Digits, after none of which their number has left the range of words. -/
def Unbroken (sign : Int) (ds : List Char) : Prop :=
  (∀ d ∈ ds, d.isDigit) ∧ ∀ p, p <+: ds → Word.Fits (signed sign p)

instance (sign : Int) (ds : List Char) : Decidable (Unbroken sign ds) :=
  have hinits : (∀ p ∈ ds.inits, Word.Fits (signed sign p)) ↔
      ∀ p, p <+: ds → Word.Fits (signed sign p) := by simp only [List.mem_inits]
  have := List.decidableBAll (fun d ↦ d.isDigit = true) ds
  have := List.decidableBAll (fun p ↦ Word.Fits (signed sign p)) ds.inits
  decidable_of_iff _ (and_congr_right' hinits)

/-- Why the text is not the numeral of a word. Behind the sign, the first character that is no digit
or with which the number leaves the range decides. -/
inductive Flawed (cs : List Char) : Flaw → Prop
  | empty (h : cs = []) : Flawed cs .empty
  | bare (h : cs ≠ []) (hu : unsigned cs = []) : Flawed cs .badDigit
  | badDigit {before after : List Char} {c : Char} (he : unsigned cs = before ++ c :: after)
      (hb : Unbroken (sign cs) before) (hc : ¬c.isDigit) : Flawed cs .badDigit
  | outOfRange {before after : List Char} {d : Char} (he : unsigned cs = before ++ d :: after)
      (hb : Unbroken (sign cs) before) (hd : d.isDigit)
      (hv : ¬Word.Fits (signed (sign cs) (before ++ [d]))) :
      Flawed cs (if cs.head? = some '-' then .tooSmall else .tooLarge)

section
variable {sign : Int} {ds before after : List Char} {c : Char}

theorem signed_concat (sign : Int) (ds : List Char) (d : Char) :
    signed sign (ds ++ [d]) = 10 * signed sign ds + sign * (d.toNat - '0'.toNat : Nat) := by
  simp only [signed, Nat.ofDigitChars_append, Nat.ofDigitChars_cons, Nat.ofDigitChars_nil]
  push_cast
  ring

theorem unbroken_nil (sign : Int) : Unbroken sign [] := by
  refine ⟨by simp, fun p hp ↦ ?_⟩
  simp [List.prefix_nil.mp hp, signed, Word.Fits]

theorem unbroken_concat_iff : Unbroken sign (ds ++ [c]) ↔
    Unbroken sign ds ∧ c.isDigit ∧ Word.Fits (signed sign (ds ++ [c])) := by
  simp only [Unbroken, List.prefix_concat_iff, List.forall_mem_append, List.forall_mem_singleton]
  constructor
  · rintro ⟨⟨hds, hc⟩, hp⟩
    exact ⟨⟨hds, fun p h ↦ hp p (.inr h)⟩, hc, hp _ (.inl rfl)⟩
  · rintro ⟨⟨hds, hp⟩, hc, hf⟩
    refine ⟨⟨hds, hc⟩, ?_⟩
    rintro p (rfl | h)
    · exact hf
    · exact hp p h

theorem readDigits_cons (hd : c.isDigit) (hf : Word.Fits (signed sign (before ++ [c]))) :
    readDigits sign (signed sign before) (c :: ds) =
      readDigits sign (signed sign (before ++ [c])) ds := by
  rw [signed_concat] at hf ⊢
  obtain ⟨hl, hu⟩ := hf
  rw [readDigits, if_pos hd]
  dsimp only
  rw [if_neg (Int.not_lt.mpr hl), if_neg (Int.not_lt.mpr hu)]

/-- What is read before anything breaks only adds to the number. -/
theorem readDigits_append (h : Unbroken sign before) (rest : List Char) :
    readDigits sign 0 (before ++ rest) = readDigits sign (signed sign before) rest := by
  induction before using List.reverseRecOn generalizing rest with
  | nil => simp [signed]
  | append_singleton before c ih =>
    obtain ⟨hb, hc, hf⟩ := unbroken_concat_iff.mp h
    rw [List.append_assoc, ih hb, List.singleton_append, readDigits_cons hc hf]

/-- The digits can be read to their end, or there is a first character where they cannot. -/
theorem unbroken_or_breaks (sign : Int) (ds : List Char) : Unbroken sign ds ∨
    ∃ before c after, ds = before ++ c :: after ∧ Unbroken sign before ∧
      (c.isDigit → ¬Word.Fits (signed sign (before ++ [c]))) := by
  induction ds using List.reverseRecOn with
  | nil => exact .inl (unbroken_nil sign)
  | append_singleton ds c ih =>
    obtain hds | ⟨before, d, after, rfl, hb, hd⟩ := ih
    · by_cases hc : c.isDigit ∧ Word.Fits (signed sign (ds ++ [c]))
      · exact .inl (unbroken_concat_iff.mpr ⟨hds, hc⟩)
      · exact .inr ⟨ds, c, [], rfl, hds, not_and.mp hc⟩
    · exact .inr ⟨before, d, after ++ [c], by simp, hb, hd⟩

end

section
variable {cs before after : List Char} {c : Char} {flaw : Flaw}

theorem read_of_ne_nil (h : cs ≠ []) : read cs = readSigned (sign cs) (unsigned cs) := by
  unfold read
  split
  · contradiction
  · rfl
  · rfl
  · rename_i hplus hminus
    have hs : sign cs = 1 := by
      cases cs with
      | nil => rfl
      | cons c cs => simpa [sign] using fun hc ↦ hminus cs (by rw [hc])
    have hu : unsigned cs = cs := by
      unfold unsigned
      split
      · exact absurd rfl (hplus _)
      · exact absurd rfl (hminus _)
      · rfl
    rw [hs, hu]

theorem ne_nil_of_unsigned (he : unsigned cs = before ++ c :: after) : cs ≠ [] := by
  rintro rfl
  simp [unsigned] at he

theorem read_of_unsigned (he : unsigned cs = before ++ c :: after)
    (hb : Unbroken (sign cs) before) : read cs =
      (readDigits (sign cs) (signed (sign cs) before) (c :: after)).map Int64.ofInt := by
  rw [read_of_ne_nil (ne_nil_of_unsigned he), readSigned, if_neg (by simp [he]), he,
    readDigits_append hb]

theorem readDigits_out_of_range (hd : c.isDigit)
    (hv : ¬Word.Fits (signed (sign cs) (before ++ [c]))) :
    readDigits (sign cs) (signed (sign cs) before) (c :: after) =
      .error (if cs.head? = some '-' then .tooSmall else .tooLarge) := by
  rw [readDigits, if_pos hd]
  dsimp only
  rw [← signed_concat]
  -- without a minus sign the number cannot be too small, nor can it be too large with one
  unfold Word.Fits signed at *
  by_cases hm : cs.head? = some '-'
  · simp only [sign, if_pos hm] at hv ⊢
    rw [if_pos (by omega)]
  · simp only [sign, if_neg hm] at hv ⊢
    rw [if_neg (by omega), if_pos (by omega)]

theorem Flawed.read (h : Flawed cs flaw) : read cs = .error flaw := by
  cases h with
  | empty h => rw [h]; rfl
  | bare h hu => rw [read_of_ne_nil h, readSigned, if_pos hu]
  | badDigit he hb hc => simp [read_of_unsigned he hb, readDigits, hc, Except.map]
  | outOfRange he hb hd hv => rw [read_of_unsigned he hb, readDigits_out_of_range hd hv]; rfl

theorem exists_flawed (h : read cs = .error flaw) : ∃ flaw, Flawed cs flaw := by
  by_cases hcs : cs = []
  · exact ⟨_, .empty hcs⟩
  by_cases hu : unsigned cs = []
  · exact ⟨_, .bare hcs hu⟩
  obtain hds | ⟨before, c, after, he, hb, hc⟩ := unbroken_or_breaks (sign cs) (unsigned cs)
  · -- digits that can be read to their end make a word
    have hread := readDigits_append hds []
    rw [List.append_nil, readDigits] at hread
    rw [read_of_ne_nil hcs, readSigned, if_neg hu, hread] at h
    cases h
  · by_cases hd : c.isDigit
    · exact ⟨_, .outOfRange he hb hd (hc hd)⟩
    · exact ⟨_, .badDigit he hb hd⟩

theorem read_eq_error_iff : read cs = .error flaw ↔ Flawed cs flaw := by
  refine ⟨fun h ↦ ?_, Flawed.read⟩
  obtain ⟨flaw', hf⟩ := exists_flawed h
  rw [hf.read] at h
  cases h
  exact hf

theorem read_eq_empty_iff : read cs = .error .empty ↔ cs = [] := by
  constructor
  · intro h
    generalize hf : Flaw.empty = flaw at h
    cases read_eq_error_iff.mp h with
    | empty hcs => exact hcs
    | bare => cases hf
    | badDigit => cases hf
    | outOfRange => split at hf <;> cases hf
  · rintro rfl
    rfl

end

end Intcode.Numeral
