import Intcode.Proofs.Legibility
import Intcode.Text.Quoted

namespace Intcode.Text

theorem digitChar_inj {m n : Nat} (hm : m < 16) (hn : n < 16)
    (h : m.digitChar = n.digitChar) : m = n := by
  have hall : ∀ i j : Fin 16, i.val.digitChar = j.val.digitChar → i = j := by decide
  exact Fin.mk.inj (hall ⟨m, hm⟩ ⟨n, hn⟩ h)

theorem toDigits_sixteen_injective : Function.Injective (Nat.toDigits 16) := by
  intro m n h
  have hlong (k : Nat) (c d : Char) : [c] ≠ Nat.toDigits 16 k ++ [d] := by
    intro he
    apply @Nat.toDigits_ne_nil 16 k
    simpa using congrArg List.length he
  induction m using Nat.strongRecOn generalizing n with
  | ind m ih =>
    rw [Nat.toDigits_eq_if (n := m) (by decide), Nat.toDigits_eq_if (n := n) (by decide)] at h
    by_cases hm : m < 16 <;> by_cases hn : n < 16
    · simp only [if_pos hm, if_pos hn, List.singleton_inj] at h
      exact digitChar_inj hm hn h
    · rw [if_pos hm, if_neg hn] at h
      exact absurd h (hlong _ _ _)
    · rw [if_neg hm, if_pos hn] at h
      exact absurd h.symm (hlong _ _ _)
    · rw [if_neg hm, if_neg hn] at h
      obtain ⟨hq, hr⟩ := List.append_inj' h rfl
      have hdiv : m / 16 = n / 16 := ih (m / 16) (by omega) hq
      have hmod : m % 16 = n % 16 :=
        digitChar_inj (by omega) (by omega) (List.singleton_inj.mp hr)
      omega

theorem brace_not_mem_toDigits (n : Nat) : '\x7d' ∉ Nat.toDigits 16 n := by
  have hd (k : Nat) : '\x7d' ≠ k.digitChar := (Nat.digitChar_ne _ (by decide)).symm
  induction n using Nat.strongRecOn with
  | ind n ih =>
    rw [Nat.toDigits_eq_if (by decide)]
    split
    · simp [hd]
    · simpa [hd] using ih (n / 16) (by omega)

/-- The character that a letter behind a backslash stands for. -/
def unescaped : Char → Char
  | 't' => '\t'
  | 'n' => '\n'
  | 'r' => '\r'
  | '0' => '\x00'
  | c => c

/-- The ways in which a character is quoted: as it is, by a letter or by its number. -/
inductive Shown (c : Char) : List Char → Prop
  | plain (hb : c ≠ backslash) (hq : c ≠ quotationMark) : Shown c [c]
  | letter {k : Char} (hk : k ≠ 'u') (hc : unescaped k = c) : Shown c [backslash, k]
  | number : Shown c (backslash :: 'u' :: '\x7b' :: (Nat.toDigits 16 c.toNat ++ ['\x7d']))

theorem shown_quotedChar (c : Char) : Shown c (quotedChar c) := by
  unfold quotedChar
  split
  · rename_i h
    rcases h with rfl | rfl <;> exact .letter (by decide) rfl
  · rename_i h
    obtain ⟨hq, hb⟩ := not_or.mp h
    iterate 4
      split
      · rename_i hc
        exact .letter (by decide) hc.symm
    split
    · exact .number
    · exact .plain hb hq

/-- What comes after a quoted character cannot be taken for a part of it. -/
theorem Shown.append_inj {c d : Char} {a b x y : List Char} (hc : Shown c a) (hd : Shown d b)
    (h : a ++ x = b ++ y) : c = d ∧ x = y := by
  cases hc with
  | plain hb hq =>
    cases hd with
    | plain => simpa using h
    | letter => exact absurd (List.cons.inj h).1 hb
    | number => exact absurd (List.cons.inj h).1 hb
  | @letter k hk hc =>
    cases hd with
    | plain hb hq => exact absurd (List.cons.inj h).1.symm hb
    | letter hk' hd =>
      simp only [List.cons_append, List.nil_append, List.cons.injEq, true_and] at h
      obtain ⟨rfl, rfl⟩ := h
      exact ⟨hc.symm.trans hd, rfl⟩
    | number =>
      simp only [List.cons_append, List.cons.injEq, true_and] at h
      exact absurd h.1 hk
  | number =>
    cases hd with
    | plain hb hq => exact absurd (List.cons.inj h).1.symm hb
    | letter hk hd =>
      simp only [List.cons_append, List.cons.injEq, true_and] at h
      exact absurd h.1.symm hk
    | number =>
      simp only [List.cons_append, List.append_assoc, List.nil_append, List.cons.injEq,
        true_and] at h
      obtain ⟨hn, hxy⟩ :=
        (append_mark_inj (brace_not_mem_toDigits _) (brace_not_mem_toDigits _)).mp h
      exact ⟨Char.toNat_inj.mp (toDigits_sixteen_injective hn), hxy⟩

theorem Shown.ne_mark {c : Char} {a x y : List Char} (hc : Shown c a) :
    a ++ x ≠ quotationMark :: y := by
  intro h
  cases hc with
  | plain hb hq => exact hq (List.cons.inj h).1
  | letter => exact absurd (List.cons.inj h).1 (by decide)
  | number => exact absurd (List.cons.inj h).1 (by decide)

theorem body_append_inj {cs ds x y : List Char} (h : cs.flatMap quotedChar ++ quotationMark :: x =
    ds.flatMap quotedChar ++ quotationMark :: y) : cs = ds ∧ x = y := by
  induction cs generalizing ds with
  | nil =>
    cases ds with
    | nil => simpa using h
    | cons d ds =>
      rw [List.flatMap_cons, List.append_assoc] at h
      exact absurd h.symm (shown_quotedChar d).ne_mark
  | cons c cs ih =>
    cases ds with
    | nil =>
      rw [List.flatMap_cons, List.append_assoc] at h
      exact absurd h (shown_quotedChar c).ne_mark
    | cons d ds =>
      simp only [List.flatMap_cons, List.append_assoc] at h
      obtain ⟨rfl, hrest⟩ := (shown_quotedChar c).append_inj (shown_quotedChar d) h
      obtain ⟨rfl, hxy⟩ := ih hrest
      exact ⟨rfl, hxy⟩

/-- A quotation shows what it quotes and where it ends. -/
theorem quoted_append_inj {cs ds x y : List Char} :
    quoted cs ++ x = quoted ds ++ y ↔ cs = ds ∧ x = y := by
  constructor
  · intro h
    simp only [quoted, List.cons_append, List.append_assoc, List.nil_append, List.cons.injEq,
      true_and] at h
    exact body_append_inj h
  · rintro ⟨rfl, rfl⟩
    rfl

end Intcode.Text
