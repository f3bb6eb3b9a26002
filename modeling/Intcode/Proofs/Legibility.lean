import Intcode.Text.Layout
import Intcode.Text.Numeral
import Mathlib.Data.List.TakeDrop

namespace Intcode

namespace Text

/-- What may come after an item: nothing, or the separator and more. -/
def Follows (sep rest : List Char) : Prop := rest = [] ∨ ∃ more, rest = sep ++ more

/-- Whatever follows an item, it is clear which one it is and where it ends. The two texts may be
rendered in different ways. -/
def Legible {α : Type} (sep : List Char) (f g : α → List Char) : Prop :=
  ∀ a b x y, Follows sep x → Follows sep y → f a ++ x = g b ++ y → a = b ∧ x = y

section
variable {α : Type} {sep : List Char} {f g : α → List Char} {c : Char}

/-- A text is divided at the first of the marks in it. -/
theorem span_mark {a : List Char} (h : c ∉ a) (x : List Char) :
    (a ++ c :: x).span (· ≠ c) = (a, c :: x) := by
  have ha : ∀ d ∈ a, decide (d ≠ c) := fun d hd ↦ by simpa using ne_of_mem_of_not_mem hd h
  rw [List.span_eq_takeWhile_dropWhile, List.takeWhile_append_of_pos ha,
    List.dropWhile_append_of_pos ha, List.takeWhile_cons_of_neg (by simp),
    List.dropWhile_cons_of_neg (by simp), List.append_nil]

theorem append_mark_inj {a b x y : List Char} (ha : c ∉ a) (hb : c ∉ b) :
    a ++ c :: x = b ++ c :: y ↔ a = b ∧ x = y := by
  constructor
  · intro h
    have hspan := span_mark ha x
    rw [h, span_mark hb] at hspan
    obtain ⟨hab, hxy⟩ := Prod.mk.inj hspan
    exact ⟨hab.symm, (List.tail_eq_of_cons_eq hxy).symm⟩
  · rintro ⟨rfl, rfl⟩
    rfl

theorem Follows.append_mark {rest : List Char} (h : Follows (c :: sep) rest) :
    ∃ more, rest ++ [c] = c :: more := by
  rcases h with rfl | ⟨more, rfl⟩
  · exact ⟨[], rfl⟩
  · exact ⟨sep ++ more ++ [c], rfl⟩

theorem append_inj_of_follows {a b x y : List Char} (ha : c ∉ a) (hb : c ∉ b)
    (hx : Follows (c :: sep) x) (hy : Follows (c :: sep) y) (h : a ++ x = b ++ y) :
    a = b ∧ x = y := by
  -- a mark behind both texts stands in for a separator that may not be there
  obtain ⟨x', hx⟩ := hx.append_mark
  obtain ⟨y', hy⟩ := hy.append_mark
  have hmark := congrArg (· ++ [c]) h
  simp only [List.append_assoc, hx, hy] at hmark
  obtain ⟨hab, rfl⟩ := (append_mark_inj ha hb).mp hmark
  exact ⟨hab, List.append_cancel_right (hx.trans hy.symm)⟩

/-- The separator begins with a mark that is in no item. -/
theorem legible_of_injective {f : α → String} (hf : ∀ a, c ∉ (f a).toList)
    (h : Function.Injective f) :
    Legible (c :: sep) (fun a ↦ (f a).toList) (fun a ↦ (f a).toList) := by
  intro a b x y hx hy he
  obtain ⟨hab, hxy⟩ := append_inj_of_follows (hf a) (hf b) hx hy he
  exact ⟨h (String.toList_inj.mp hab), hxy⟩

/-- Each item ends with a mark that is nowhere else in it. -/
theorem legible_of_closed (hf : ∀ a, c ∉ f a) (hg : ∀ a, c ∉ g a) (h : ∀ a b, f a = g b → a = b) :
    Legible sep (fun a ↦ f a ++ [c]) (fun a ↦ g a ++ [c]) := by
  intro a b x y _ _ he
  simp only [List.append_assoc, List.singleton_append] at he
  obtain ⟨hab, hxy⟩ := (append_mark_inj (hf a) (hg b)).mp he
  exact ⟨h a b hab, hxy⟩

/-- What comes after an item that is followed by these. -/
def continued (sep : List Char) : List (List Char) → List Char
  | [] => []
  | l :: ls => sep ++ sep.intercalate (l :: ls)

theorem follows_continued (ls : List (List Char)) : Follows sep (continued sep ls) := by
  cases ls with
  | nil => exact .inl rfl
  | cons l ls => exact .inr ⟨_, rfl⟩

theorem intercalate_cons (l : List Char) (ls : List (List Char)) :
    sep.intercalate (l :: ls) = l ++ continued sep ls := by
  cases ls with
  | nil => rw [List.intercalate_singleton, continued, List.append_nil]
  | cons l' ls => rw [List.intercalate_cons_cons, continued, List.append_assoc]

/-- What the separator has after its mark may as well belong to the items. -/
theorem continued_cons_sep (ls : List (List Char)) :
    continued (c :: sep) ls = continued [c] (ls.map (sep ++ ·)) := by
  induction ls with
  | nil => rfl
  | cons l ls ih =>
    rw [continued, List.map_cons, continued, intercalate_cons, intercalate_cons, ih]
    simp

theorem intercalate_nil_eq_flatten (ls : List (List Char)) : [].intercalate ls = ls.flatten := by
  induction ls with
  | nil => rfl
  | cons l ls ih =>
    rw [intercalate_cons, List.flatten_cons, ← ih]
    cases ls <;> rfl

theorem not_mem_intercalate (hs : c ∉ sep) (h : ∀ a, c ∉ f a) (as : List α) :
    c ∉ sep.intercalate (as.map f) := by
  induction as with
  | nil => exact List.not_mem_nil
  | cons a as ih =>
    rw [List.map_cons, intercalate_cons]
    cases as with
    | nil => simpa [continued] using h a
    | cons b as => simpa [continued, h, hs] using ih

theorem eq_of_continued (h : Legible sep f g) (hf : ∀ a, f a ≠ []) (hg : ∀ a, g a ≠ [])
    {as bs : List α} (he : continued sep (as.map f) = continued sep (bs.map g)) : as = bs := by
  induction as generalizing bs with
  | nil =>
    cases bs with
    | nil => rfl
    | cons b bs =>
      rw [List.map_cons, continued, intercalate_cons] at he
      simp [continued, hg] at he
  | cons a as ih =>
    cases bs with
    | nil =>
      rw [List.map_cons, continued, intercalate_cons] at he
      simp [continued, hf] at he
    | cons b bs =>
      rw [List.map_cons, List.map_cons, continued, continued, intercalate_cons,
        intercalate_cons] at he
      obtain ⟨rfl, hrest⟩ := h a b _ _ (follows_continued _) (follows_continued _)
        (List.append_cancel_left he)
      rw [ih hrest]

/-- Items that are legible one by one are legible as a list. -/
theorem eq_of_intercalate (h : Legible sep f g) (hf : ∀ a, f a ≠ []) (hg : ∀ a, g a ≠ [])
    {as bs : List α} (he : sep.intercalate (as.map f) = sep.intercalate (bs.map g)) :
    as = bs := by
  have hne {f : α → List Char} (hf : ∀ a, f a ≠ []) (a : α) (as : List α) :
      sep.intercalate ((a :: as).map f) ≠ [] := by
    rw [List.map_cons, intercalate_cons]
    simp [hf a]
  cases as with
  | nil =>
    cases bs with
    | nil => rfl
    | cons b bs => exact absurd he.symm (hne hg b bs)
  | cons a as =>
    cases bs with
    | nil => exact absurd he (hne hf a as)
    | cons b bs => exact eq_of_continued h hf hg (congrArg (sep ++ ·) he)

end

theorem toList_commaSeparated (items : List String) :
    (commaSeparated items).toList = [',', ' '].intercalate (items.map String.toList) :=
  String.toList_intercalate

theorem toList_bracketed (items : List String) :
    (bracketed items).toList = '[' :: ((commaSeparated items).toList ++ [']']) := by
  rw [bracketed, String.toList_append, String.toList_append]
  rfl

end Text

namespace Numeral

theorem ofNat_injective : Function.Injective ofNat := by
  intro m n h
  have hm := natValue?_ofNat m
  rw [h, natValue?_ofNat] at hm
  exact (Option.some.inj hm).symm

theorem ofInt_injective : Function.Injective ofInt := by
  intro y z h
  have hy := value?_ofInt y
  rw [h, value?_ofInt] at hy
  exact (Option.some.inj hy).symm

theorem isDigit_of_mem_ofNat {n : Nat} {c : Char} (h : c ∈ ofNat n) : c.isDigit :=
  Nat.isDigit_of_mem_toDigits (by decide) (by decide) h

theorem ofNat_ne_nil (n : Nat) : ofNat n ≠ [] := Nat.toDigits_ne_nil

theorem ofInt_ne_nil (z : Int) : ofInt z ≠ [] := by
  cases z with
  | ofNat n => exact ofNat_ne_nil n
  | negSucc n => exact List.cons_ne_nil _ _

theorem not_mem_ofNat {c : Char} (hd : ¬c.isDigit) (n : Nat) : c ∉ ofNat n :=
  fun h ↦ hd (isDigit_of_mem_ofNat h)

theorem not_mem_ofInt {c : Char} (hd : ¬c.isDigit) (hm : c ≠ '-') (z : Int) : c ∉ ofInt z := by
  cases z with
  | ofNat n => exact not_mem_ofNat hd n
  | negSucc n => exact List.not_mem_cons_of_ne_of_not_mem hm (not_mem_ofNat hd _)

theorem length_ofNat_mono {m n : Nat} (h : m ≤ n) : (ofNat m).length ≤ (ofNat n).length := by
  have hpos : 0 < (ofNat n).length := List.length_pos_iff.mpr (ofNat_ne_nil n)
  have hn : n < 10 ^ (ofNat n).length :=
    (Nat.length_toDigits_le_iff (by decide) hpos).mp (Nat.le_refl _)
  exact (Nat.length_toDigits_le_iff (by decide) hpos).mpr (Nat.lt_of_le_of_lt h hn)

end Numeral

namespace Word

theorem toList_text (w : Word) : w.text.toList = Numeral.ofInt w.toInt := String.toList_ofList

theorem text_injective : Function.Injective text := by
  intro v w h
  exact Int64.toInt_inj.mp (Numeral.ofInt_injective (String.ofList_injective h))

theorem not_mem_text {c : Char} (hd : ¬c.isDigit) (hm : c ≠ '-') (w : Word) :
    c ∉ w.text.toList := by
  rw [toList_text]
  exact Numeral.not_mem_ofInt hd hm w.toInt

theorem toList_text_ne_nil (w : Word) : w.text.toList ≠ [] := by
  rw [toList_text]
  exact Numeral.ofInt_ne_nil w.toInt

end Word

end Intcode
