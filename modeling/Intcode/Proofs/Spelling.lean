import Intcode.Proofs.Legibility
import Intcode.Proofs.LoadFormat
import Intcode.Proofs.Typing
import Mathlib.Data.List.Forall2

namespace Intcode

open Text

namespace Program

/-- The numeral of the word, with blanks before it and after it. -/
inductive Padded : List Char → Word → Prop
  | mk {lead trail : List Char} (w : Word) (hlead : ∀ c ∈ lead, isBlank c)
      (htrail : ∀ c ∈ trail, isBlank c) : Padded (lead ++ (Numeral.ofInt w.toInt ++ trail)) w

/-- The words are what the text spells out, with commas between their numerals. -/
def Spells (text : String) (ws : List Word) : Prop :=
  ∃ pieces, text.toList = [','].intercalate pieces ∧ List.Forall₂ Padded pieces ws

section
variable {piece : List Char} {w : Word} {text : String} {ws : List Word}

/-- A piece that denotes a word is not blank. -/
theorem Denotes.exists_not_isBlank (h : Denotes piece w) : ∃ c ∈ piece, ¬isBlank c := by
  by_contra hn
  have hblank : ∀ c ∈ piece, isBlank c := by simpa using hn
  have htrim : trim piece = [] := by rw [trim, List.dropWhile_eq_nil_iff.mpr hblank]; rfl
  rw [Denotes, htrim] at h
  cases h

theorem parse_of_divided {pieces : List (List Char)} (hd : Divided text.toList pieces)
    (hne : pieces ≠ []) (h : List.Forall₂ Denotes pieces ws) : parse text = .ok ws := by
  have hblank : ¬text.toList.all isBlank := by
    cases h with
    | nil => exact absurd rfl hne
    | cons hw _ =>
      obtain ⟨c, hc, hb⟩ := hw.exists_not_isBlank
      refine fun hall ↦ hb (List.all_eq_true.mp hall c ?_)
      rw [← hd.joined, intercalate_cons]
      exact List.mem_append_left _ hc
  rw [parse, if_neg hblank, hd.splitOn_eq hne, readCells_of_denotes h]

theorem Padded.denotes (h : Padded piece w) : Denotes piece w := by
  cases h with
  | mk _ hlead htrail =>
    have hv := Numeral.value?_ofInt w.toInt
    obtain ⟨hne, hmid⟩ := Numeral.not_isBlank_of_value? hv
    rw [Denotes, trim_of_padded hlead hmid hne htrail, hv]

theorem Padded.not_mem {c : Char} (hblank : ¬isBlank c) (hd : ¬c.isDigit) (hm : c ≠ '-')
    (h : Padded piece w) : c ∉ piece := by
  cases h with
  | mk _ hlead htrail =>
    simp only [List.mem_append, not_or]
    exact ⟨fun h ↦ hblank (hlead _ h), Numeral.not_mem_ofInt hd hm w.toInt,
      fun h ↦ hblank (htrail _ h)⟩

theorem comma_not_mem_of_padded {pieces : List (List Char)} (h : List.Forall₂ Padded pieces ws) :
    ∀ q ∈ pieces, ',' ∉ q := by
  induction h with
  | nil => exact List.forall_mem_nil _
  | cons hw _ ih =>
    have hcomma := hw.not_mem (c := ',') (by decide) (by decide) (by decide)
    exact List.forall_mem_cons.mpr ⟨hcomma, ih⟩

/-- What spells out words is the text of a program, and that of these words. -/
theorem parse_of_spells (h : Spells text ws) : parse text = .ok ws := by
  obtain ⟨pieces, hjoined, hpieces⟩ := h
  have hd : Divided text.toList pieces := ⟨hjoined.symm, comma_not_mem_of_padded hpieces⟩
  cases hpieces with
  | nil => exact if_pos (by rw [hjoined]; rfl)
  | cons hw hws =>
    have hpieces := List.Forall₂.cons hw.denotes (hws.imp fun _ _ ↦ Padded.denotes)
    exact parse_of_divided hd (List.cons_ne_nil _ _) hpieces

theorem Padded.of_lead {lead : List Char} (h : ∀ c ∈ lead, isBlank c) (w : Word) :
    Padded (lead ++ w.text.toList) w := by
  have hp : Padded (lead ++ (Numeral.ofInt w.toInt ++ [])) w := .mk w h (List.forall_mem_nil _)
  rwa [List.append_nil, ← Word.toList_text] at hp

theorem forall₂_padded {lead : List Char} (h : ∀ c ∈ lead, isBlank c) (ws : List Word) :
    List.Forall₂ Padded (ws.map fun w ↦ lead ++ w.text.toList) ws :=
  List.forall₂_map_left_iff.mpr (List.forall₂_same.mpr fun w _ ↦ .of_lead h w)

/-- The numerals with commas between them, after each of which there may be the same blanks. -/
theorem spells_intercalate {lead : List Char} (h : ∀ c ∈ lead, isBlank c) (ws : List Word) :
    Spells (String.ofList ((',' :: lead).intercalate (ws.map fun w ↦ w.text.toList))) ws := by
  rw [Spells, String.toList_ofList]
  cases ws with
  | nil => exact ⟨[], rfl, .nil⟩
  | cons w ws =>
    refine ⟨w.text.toList :: ws.map fun w ↦ lead ++ w.text.toList, ?_,
      .cons (.of_lead (List.forall_mem_nil _) w) (forall₂_padded h ws)⟩
    rw [List.map_cons, intercalate_cons, continued_cons_sep, intercalate_cons, List.map_map]
    rfl

end

end Program

end Intcode
