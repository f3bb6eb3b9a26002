import Intcode.Proofs.Spelling
import Intcode.Proofs.Writes

namespace Intcode

open Text

namespace Word

/-- The words without the brackets around them. -/
def row (ws : List Word) : List Char := [',', ' '].intercalate (ws.map fun w ↦ w.text.toList)

theorem legible_text : Legible [',', ' '] (fun w : Word ↦ w.text.toList) (fun w ↦ w.text.toList) :=
  legible_of_injective (not_mem_text (by decide) (by decide)) text_injective

theorem row_injective : Function.Injective row :=
  fun _ _ h ↦ eq_of_intercalate legible_text toList_text_ne_nil toList_text_ne_nil h

theorem toList_listText (ws : List Word) : (listText ws).toList = '[' :: (row ws ++ [']']) := by
  rw [listText, toList_bracketed, toList_commaSeparated, List.map_map]
  rfl

theorem bracket_not_mem_row (ws : List Word) : ']' ∉ row ws :=
  not_mem_intercalate (by decide) (not_mem_text (by decide) (by decide)) ws

end Word

namespace Store

/-- A cell with its address, up to the bracket that closes it. -/
def openCell (c : Nat × Word) : List Char :=
  '(' :: (Numeral.ofNat c.1 ++ ',' :: ' ' :: c.2.text.toList)

def cellText (c : Nat × Word) : String := "(" ++ Numeral.text c.1 ++ ", " ++ c.2.text ++ ")"

theorem toList_cellText (c : Nat × Word) : (cellText c).toList = openCell c ++ [')'] := by
  simp [cellText, openCell, Numeral.text]

theorem bracket_not_mem_openCell (c : Nat × Word) : ')' ∉ openCell c := by
  simp [openCell, Numeral.not_mem_ofNat, Word.not_mem_text]

theorem openCell_injective : Function.Injective openCell := by
  rintro ⟨a, v⟩ ⟨b, w⟩ h
  have hcomma (n : Nat) : ',' ∉ Numeral.ofNat n := Numeral.not_mem_ofNat (by decide) n
  obtain ⟨hab, hvw⟩ := (append_mark_inj (hcomma a) (hcomma b)).mp (List.tail_eq_of_cons_eq h)
  have hvw : v = w := Word.text_injective (String.toList_inj.mp (List.tail_eq_of_cons_eq hvw))
  rw [Numeral.ofNat_injective hab, hvw]

/-- What stands in a dump after the image, if there is anything. -/
def beyondText (cells : List (Nat × Word)) : String :=
  if cells = [] then "" else " + " ++ Text.bracketed (cells.map cellText)

theorem toList_beyondText {cells : List (Nat × Word)} (h : cells ≠ []) :
    (beyondText cells).toList = " + [".toList ++
      [',', ' '].intercalate (cells.map fun c ↦ openCell c ++ [')']) ++ [']'] := by
  rw [beyondText, if_neg h]
  simp [toList_bracketed, toList_commaSeparated, Function.comp_def, toList_cellText]

theorem beyondText_injective : Function.Injective beyondText := by
  intro cells cells' h
  have h := congrArg String.toList h
  have hl : Legible [',', ' '] (fun c ↦ openCell c ++ [')']) (fun c ↦ openCell c ++ [')']) :=
    legible_of_closed bracket_not_mem_openCell bracket_not_mem_openCell
      fun _ _ h ↦ openCell_injective h
  by_cases hc : cells = [] <;> by_cases hc' : cells' = []
  · rw [hc, hc']
  · rw [hc, toList_beyondText hc'] at h
    simp [beyondText] at h
  · rw [hc', toList_beyondText hc] at h
    simp [beyondText] at h
  · rw [toList_beyondText hc, toList_beyondText hc'] at h
    exact eq_of_intercalate hl (by simp) (by simp)
      (List.append_cancel_left (List.append_cancel_right h))

theorem dump_eq (s : Store) :
    s.dump = Word.listText s.image.toList ++ beyondText s.beyond.toList := by
  have hempty : s.beyond.isEmpty ↔ s.beyond.toList = [] := by
    rw [← Std.ExtTreeMap.isEmpty_toList, List.isEmpty_iff]
  exact congrArg (Word.listText s.image.toList ++ ·) (if_congr hempty rfl rfl)

theorem toList_dump (s : Store) :
    s.dump.toList =
      '[' :: (Word.row s.image.toList ++ ']' :: (beyondText s.beyond.toList).toList) := by
  rw [dump_eq, String.toList_append, Word.toList_listText]
  simp

theorem eq_of_dump {s t : Store} (h : s.dump = t.dump) : s = t := by
  have h := congrArg String.toList h
  rw [toList_dump, toList_dump] at h
  obtain ⟨himage, hbeyond⟩ := (append_mark_inj (Word.bracket_not_mem_row _)
    (Word.bracket_not_mem_row _)).mp (List.tail_eq_of_cons_eq h)
  have himage := Array.toList_inj.mp (Word.row_injective himage)
  have hbeyond :=
    Std.ExtTreeMap.toList_inj.mp (beyondText_injective (String.toList_inj.mp hbeyond))
  cases s
  cases t
  cases himage
  cases hbeyond
  rfl

/-- The order of pairs, the first component being the more important one. -/
def Precedes (c d : Nat × Word) : Prop := c.1 < d.1 ∨ c.1 = d.1 ∧ c.2 ≤ d.2

instance (c d : Nat × Word) : Decidable (Precedes c d) := inferInstanceAs (Decidable (_ ∨ _))

/-- A dump made from the cells past the image in any order, in which they are sorted first. -/
def dumpOf (image : List Word) (cells : List (Nat × Word)) : String :=
  Word.listText image ++ beyondText (cells.mergeSort (Precedes · ·))

theorem Precedes.trans {b c d : Nat × Word} (h : Precedes b c) (h' : Precedes c d) :
    Precedes b d := by
  rcases h with h | ⟨h, hv⟩ <;> rcases h' with h' | ⟨h', hv'⟩
  · exact .inl (by omega)
  · exact .inl (by omega)
  · exact .inl (by omega)
  · exact .inr ⟨h.trans h', Int64.le_trans hv hv'⟩

theorem Precedes.total (c d : Nat × Word) : Precedes c d ∨ Precedes d c := by
  rcases Nat.lt_trichotomy c.1 d.1 with h | h | h
  · exact .inl (.inl h)
  · exact (Int64.le_total c.2 d.2).imp (fun hv ↦ .inr ⟨h, hv⟩) fun hv ↦ .inr ⟨h.symm, hv⟩
  · exact .inr (.inl h)

theorem Precedes.antisymm {c d : Nat × Word} (h : Precedes c d) (h' : Precedes d c) : c = d := by
  rcases h with h | ⟨h, hv⟩ <;> rcases h' with h' | ⟨h', hv'⟩
  · omega
  · omega
  · omega
  · exact Prod.ext h (Int64.le_antisymm hv hv')

/-- The cells of a store come sorted out of any order. -/
theorem mergeSort_eq {s : Store} {cells : List (Nat × Word)} (h : cells.Perm s.beyond.toList) :
    cells.mergeSort (Precedes · ·) = s.beyond.toList := by
  have hsorted : (cells.mergeSort (Precedes · ·)).Pairwise Precedes := by
    have hp := @List.pairwise_mergeSort _ (decide <| Precedes · ·)
      (fun b c d hbc hcd ↦ by simpa using (of_decide_eq_true hbc).trans (of_decide_eq_true hcd))
      (fun c d ↦ by simpa using Precedes.total c d) cells
    simpa using hp
  have hstore : s.beyond.toList.Pairwise Precedes :=
    Std.ExtTreeMap.ordered_keys_toList.imp fun hk ↦ .inl (Nat.compare_eq_lt.mp hk)
  exact List.Perm.eq_of_pairwise (fun _ _ _ _ ↦ Precedes.antisymm) hsorted hstore
    ((List.mergeSort_perm _ _).trans h)

theorem dumpOf_eq {s : Store} {cells : List (Nat × Word)} (h : cells.Perm s.beyond.toList) :
    dumpOf s.image.toList cells = s.dump := by
  rw [dumpOf, mergeSort_eq h, dump_eq]

/-- A cell that is given a zero for the first time reads as before, and shows in the dump. -/
theorem dump_set_zero {s : Store} {a : Nat} (h : s.size ≤ a) (ha : a ∉ s.beyond) :
    (∀ b, (s.set a 0).get b = s.get b) ∧ (s.set a 0).dump ≠ s.dump := by
  refine ⟨fun b ↦ ?_, fun hd ↦ ?_⟩
  · rw [get_set]
    split
    · rename_i hab
      have hs : ¬a < s.image.size := Nat.not_lt.mpr h
      rw [← hab, get, dif_neg hs, Std.ExtTreeMap.getD_eq_fallback ha]
    · rfl
  · have hmem : a ∈ (s.set a 0).beyond := mem_set.mpr (.inr ⟨rfl, h⟩)
    rw [eq_of_dump hd] at hmem
    exact ha hmem

end Store

namespace Program

theorem parse_row (ws : List Word) : parse (String.ofList (Word.row ws)) = .ok ws :=
  parse_of_spells (@spells_intercalate [' '] (List.forall_mem_singleton.mpr rfl) ws)

end Program

namespace Store

theorem dump_ofList (ws : List Word) :
    (ofList ws).dump = "[" ++ String.ofList (Word.row ws) ++ "]" := by
  rw [← String.toList_inj, toList_dump]
  simp [ofList, beyondText]

/-- The text of a store is that of no other store, in whatever order its cells are come upon, and
shows also a zero that reads like none. That of an image, without its brackets, is the text of a
program, and so is any other that spells out its words. -/
theorem dump_legible :
    (∀ s t : Store, s.dump = t.dump ↔ s = t) ∧
    (∀ (s : Store) (cells : List (Nat × Word)), cells.Perm s.beyond.toList →
      dumpOf s.image.toList cells = s.dump) ∧
    (∀ (s : Store) (a : Nat), s.size ≤ a → a ∉ s.beyond →
      (∀ b, (s.set a 0).get b = s.get b) ∧ (s.set a 0).dump ≠ s.dump) ∧
    (∀ ws, ∃ body, (ofList ws).dump = "[" ++ body ++ "]" ∧ Program.parse body = .ok ws) ∧
    ∀ text ws, Program.Spells text ws → Program.parse text = .ok ws := by
  refine ⟨fun s t ↦ ⟨eq_of_dump, congrArg dump⟩, fun s cells ↦ dumpOf_eq,
    fun s a ↦ dump_set_zero, fun ws ↦ ?_, fun text ws ↦ Program.parse_of_spells⟩
  exact ⟨_, dump_ofList ws, Program.parse_row ws⟩

/-- Two cells are written past the image, and come upon in the order in which they were written. -/
theorem dump_legible_of_written :
    let s := ((ofList [1, -2]).set 9 0).set 8 5
    let text := " 1 ,\t-2\n"
    (∀ t, s.dump = t.dump ↔ s = t) ∧ dumpOf [1, -2] [(9, 0), (8, 5)] = s.dump ∧
      s.dump = "[1, -2] + [(8, 5), (9, 0)]" ∧ (s.set 10 0).dump ≠ s.dump ∧
      Program.parse text = .ok [1, -2] := by
  intro s text
  obtain ⟨heq, hcells, hzero, -, htext⟩ := dump_legible
  have hbeyond : s.beyond.toList = [(8, 5), (9, 0)] := by decide
  have hperm : [(9, 0), (8, 5)].Perm s.beyond.toList := hbeyond ▸ .swap _ _ _
  have hone {c : Char} (hc : Text.isBlank c) : ∀ d ∈ [c], Text.isBlank d :=
    List.forall_mem_singleton.mpr hc
  have hspells : Program.Spells text [1, -2] := by
    refine ⟨[" 1 ".toList, "\t-2\n".toList], by decide, .cons ?_ (.cons ?_ .nil)⟩
    · exact @Program.Padded.mk [' '] [' '] 1 (hone rfl) (hone rfl)
    · exact @Program.Padded.mk ['\t'] ['\n'] (-2) (hone rfl) (hone rfl)
  have hten : 10 ∉ s.beyond := by
    rw [← Std.ExtTreeMap.mem_keys]
    decide
  exact ⟨heq s, hcells s _ hperm, by decide, (hzero s 10 (by decide) hten).2, htext _ _ hspells⟩

end Store

end Intcode
