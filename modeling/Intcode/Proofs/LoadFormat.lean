import Intcode.Program
import Intcode.Proofs.Flaws
import Mathlib.Data.List.Basic

namespace Intcode

namespace Program

/-- The piece is the numeral of `w`, but for blanks around it. -/
def Denotes (piece : List Char) (w : Word) : Prop :=
  Numeral.value? (Text.trim piece) = some w.toInt

/-- Why the piece with the given index is not a cell. -/
def cellFailure (index : Nat) (piece : List Char) : Failure where
  kind := .programText
  note := if Text.trim piece = [] then "EMPTY CELL" else "NOT AN INTEGER"
  address := some index

/-- The first piece that is not a cell, by what is wrong with it. -/
inductive FirstFailure (pieces : List (List Char)) : Failure → Prop
  | mk {before after : List (List Char)} {piece : List Char} (he : pieces = before ++ piece :: after)
      (hb : ∀ q ∈ before, ∃ w, Denotes q w) (hp : ∀ w, ¬Denotes piece w) :
      FirstFailure pieces (cellFailure before.length piece)

/-- The commas of the text divide it into these pieces. -/
structure Divided (cs : List Char) (pieces : List (List Char)) : Prop where
  joined : [','].intercalate pieces = cs
  free : ∀ piece ∈ pieces, ',' ∉ piece

variable {index : Nat} {piece : List Char} {pieces before after : List (List Char)} {w : Word}
  {ws : List Word}

theorem readCell_eq_ok_iff : readCell index piece = .ok w ↔ Denotes piece w := by
  rw [Denotes, ← Numeral.read_eq_ok_iff, readCell]
  split <;> simp_all

theorem readCell_of_bad (h : ∀ w, ¬Denotes piece w) :
    readCell index piece = .error (cellFailure index piece) := by
  rw [readCell, cellFailure]
  split
  · rename_i w hr
    exact absurd (Numeral.read_eq_ok_iff.mp hr) (h w)
  · rename_i hr
    rw [if_pos (Numeral.read_eq_empty_iff.mp hr)]
    rfl
  · rename_i hne hr
    have hp : Text.trim piece ≠ [] := fun he ↦
      hne (Except.error.inj (hr.symm.trans (Numeral.read_eq_empty_iff.mpr he)))
    rw [if_neg hp]
    rfl

theorem readCells_of_error {e : Failure} (h : readCell index piece = .error e) :
    readCells index (piece :: pieces) = .error e := by
  rw [readCells, h]
  rfl

theorem readCells_of_ok (h : readCell index piece = .ok w) :
    readCells index (piece :: pieces) = (readCells (index + 1) pieces).map (w :: ·) := by
  rw [readCells, h]
  cases readCells (index + 1) pieces <;> rfl

theorem readCells_of_denotes (h : List.Forall₂ Denotes pieces ws) :
    readCells index pieces = .ok ws := by
  induction h generalizing index with
  | nil => rfl
  | cons hw _ ih => rw [readCells_of_ok (readCell_eq_ok_iff.mpr hw), ih]; rfl

theorem readCells_of_bad (hb : ∀ q ∈ before, ∃ w, Denotes q w) (hp : ∀ w, ¬Denotes piece w) :
    readCells index (before ++ piece :: after) = .error (cellFailure (index + before.length) piece) := by
  induction before generalizing index with
  | nil => exact readCells_of_error (readCell_of_bad hp)
  | cons q before ih =>
    obtain ⟨⟨w, hw⟩, hb⟩ := List.forall_mem_cons.mp hb
    rw [List.cons_append, readCells_of_ok (readCell_eq_ok_iff.mpr hw), ih hb, List.length_cons]
    rw [Nat.add_right_comm, Nat.add_assoc]
    rfl

/-- The pieces are cells, or there is a first one that is not. -/
theorem denotes_or_fails (pieces : List (List Char)) :
    (∃ ws, List.Forall₂ Denotes pieces ws) ∨ ∃ e, FirstFailure pieces e := by
  induction pieces with
  | nil => exact .inl ⟨[], .nil⟩
  | cons piece pieces ih =>
    by_cases hp : ∃ w, Denotes piece w
    · obtain ⟨w, hw⟩ := hp
      obtain ⟨ws, hws⟩ | ⟨e, he⟩ := ih
      · exact .inl ⟨w :: ws, .cons hw hws⟩
      · cases he with
        | mk he hb hn =>
          have hb' := List.forall_mem_cons.mpr ⟨⟨w, hw⟩, hb⟩
          exact .inr ⟨_, .mk (congrArg (piece :: ·) he) hb' hn⟩
    · have hn : ∀ w, ¬Denotes piece w := fun w hw ↦ hp ⟨w, hw⟩
      exact .inr ⟨_, .mk (List.nil_append _).symm (by simp) hn⟩

theorem FirstFailure.readCells {e : Failure} (h : FirstFailure pieces e) :
    readCells 0 pieces = .error e := by
  cases h with
  | mk he hb hp => rw [he, readCells_of_bad hb hp, Nat.zero_add]

theorem readCells_eq_ok_iff : readCells 0 pieces = .ok ws ↔ List.Forall₂ Denotes pieces ws := by
  refine ⟨fun h ↦ ?_, readCells_of_denotes⟩
  obtain ⟨us, hus⟩ | ⟨e, he⟩ := denotes_or_fails pieces
  · rw [readCells_of_denotes hus] at h
    cases h
    exact hus
  · rw [he.readCells] at h
    cases h

theorem readCells_eq_error_iff {e : Failure} : readCells 0 pieces = .error e ↔ FirstFailure pieces e := by
  refine ⟨fun h ↦ ?_, FirstFailure.readCells⟩
  obtain ⟨ws, hws⟩ | ⟨e', he⟩ := denotes_or_fails pieces
  · rw [readCells_of_denotes hws] at h
    cases h
  · rw [he.readCells] at h
    cases h
    exact he

theorem not_mem_splitOn {cs : List Char} {sep : Char} : ∀ piece ∈ cs.splitOn sep, sep ∉ piece := by
  induction cs with
  | nil => simp [List.splitOn_nil]
  | cons c cs ih =>
    rw [List.splitOn_cons_eq_if_modifyHead]
    split
    · exact List.forall_mem_cons.mpr ⟨List.not_mem_nil, ih⟩
    · rename_i hc
      obtain ⟨p, ps, hs⟩ := List.exists_cons_of_ne_nil (List.splitOn_ne_nil sep cs)
      rw [hs] at ih ⊢
      obtain ⟨hp, hps⟩ := List.forall_mem_cons.mp ih
      refine List.forall_mem_cons.mpr ⟨fun hm ↦ ?_, hps⟩
      rcases List.mem_cons.mp hm with rfl | hm
      · exact hc (beq_self_eq_true _)
      · exact hp hm

theorem divided_splitOn (cs : List Char) : Divided cs (cs.splitOn ',') :=
  ⟨List.intercalate_splitOn ',', not_mem_splitOn⟩

theorem Divided.splitOn_eq {cs : List Char} (h : Divided cs pieces) (hne : pieces ≠ []) :
    cs.splitOn ',' = pieces := by
  rw [← h.joined]
  exact List.splitOn_intercalate ',' h.free hne

/-- A blank text is the empty program. The commas of any other text divide it into pieces, and it is
the program that these denote, or fails at the first of them that denotes no word. -/
theorem parse_exactly (text : String) :
    (text.toList.all Text.isBlank → parse text = .ok []) ∧
    (¬text.toList.all Text.isBlank →
      (∃ pieces, Divided text.toList pieces) ∧
      ∀ pieces, Divided text.toList pieces →
        (∀ ws, parse text = .ok ws ↔ List.Forall₂ Denotes pieces ws) ∧
        ∀ e, parse text = .error e ↔ FirstFailure pieces e) := by
  refine ⟨fun h ↦ if_pos h, fun h ↦ ⟨⟨_, divided_splitOn text.toList⟩, fun pieces hd ↦ ?_⟩⟩
  have hne : pieces ≠ [] := by
    rintro rfl
    have hn := hd.joined
    rw [List.intercalate_nil] at hn
    rw [← hn] at h
    exact h rfl
  have hp : parse text = readCells 0 pieces := by rw [parse, if_neg h, hd.splitOn_eq hne]
  exact ⟨fun ws ↦ by rw [hp, readCells_eq_ok_iff], fun e ↦ by rw [hp, readCells_eq_error_iff]⟩

/-- Signs, leading zeros and blanks are read past, up to a number that is too large by one. -/
theorem parse_exactly_of_tooLarge :
    let text := " +007,\u3000-9223372036854775808\n,9223372036854775808,,x"
    let pieces : List (List Char) := [" +007".toList, "\u3000-9223372036854775808\n".toList,
      "9223372036854775808".toList, [], ['x']]
    ¬text.toList.all Text.isBlank ∧ Divided text.toList pieces ∧
      parse text = .error (.badCell 2) := by
  intro text pieces
  have hblank : ¬text.toList.all Text.isBlank := by decide
  have hd : Divided text.toList pieces := ⟨by decide, by decide⟩
  have hbefore : ∀ q ∈ pieces.take 2, ∃ w, Denotes q w :=
    List.forall_mem_cons.mpr ⟨⟨7, rfl⟩,
      List.forall_mem_singleton.mpr ⟨-9223372036854775808, rfl⟩⟩
  have hbad : ∀ w, ¬Denotes "9223372036854775808".toList w := by
    intro w hw
    have hv : Numeral.value? (Text.trim "9223372036854775808".toList) = some 9223372036854775808 := by
      decide
    have hz := Option.some.inj (hv.symm.trans hw)
    have := w.toInt_le
    omega
  have hf : FirstFailure pieces (.badCell 2) := .mk rfl hbefore hbad
  exact ⟨hblank, hd, ((parse_exactly text).2 hblank).2 pieces hd |>.2 _ |>.mpr hf⟩

end Program

end Intcode
