import Intcode.Proofs.Images
import Intcode.Proofs.Partition

namespace Intcode

/-- The cells of the lines, one after the other. -/
def assemble (ls : List Line) : List Word := ls.flatMap Line.cells

def reassembled (s : Store) : Store := .ofList (assemble (disassemble s))

theorem Store.getElem?_toList_image {s : Store} {a : Nat} (h : a < s.size) :
    s.image.toList[a]? = some (s.get a) := by
  have ha : a < s.image.size := h
  rw [get, dif_pos ha, Array.getElem?_toList, Array.getElem?_eq_getElem ha]

theorem Line.length_cells (l : Line) : l.cells.length = l.size := by
  cases l with
  | code a i =>
    rw [cells, Instruction.cells, List.length_cons, List.length_map, i.length_operands]
    rfl
  | data a w => rfl

namespace Tiles

variable {pos stop : Nat} {ls : List Line}

theorem length_assemble (h : Tiles pos ls stop) : pos + (assemble ls).length = stop := by
  induction h with
  | nil => rfl
  | @cons pos stop l ls _ _ ih =>
    rw [assemble, List.flatMap_cons, List.length_append, l.length_cells, ← Nat.add_assoc]
    exact ih

/-- What is assembled has the cells of a line at its address. -/
theorem getElem?_assemble (h : Tiles pos ls stop) {l : Line} (hl : l ∈ ls) {k : Nat}
    (hk : k < l.size) : (assemble ls)[l.address - pos + k]? = l.cells[k]? := by
  induction h with
  | nil => cases hl
  | @cons pos stop m ls ha h ih =>
    rw [assemble, List.flatMap_cons]
    rcases List.mem_cons.mp hl with rfl | hl
    · rw [ha, Nat.sub_self, Nat.zero_add, List.getElem?_append_left (by rwa [l.length_cells])]
    · have hle := (h.address_bounds hl).1
      rw [List.getElem?_append_right (by rw [m.length_cells]; omega), m.length_cells, ← ih hl,
        assemble]
      congr 1
      omega

theorem exists_covers (h : Tiles pos ls stop) {a : Nat} (h₀ : pos ≤ a) (h₁ : a < stop) :
    ∃ l ∈ ls, l.Covers a := by
  have hc := h.countP_covers a
  rw [if_pos ⟨h₀, h₁⟩] at hc
  obtain ⟨l, hl, ha⟩ := List.countP_pos_iff.mp (hc ▸ Nat.one_pos)
  exact ⟨l, hl, of_decide_eq_true ha⟩

end Tiles

section
variable {s : Store} {a : Nat} {i : Instruction} {w : Word}

theorem length_assemble (s : Store) : (assemble (disassemble s)).length = s.size := by
  have h := (tiles_disassemble s).length_assemble
  rwa [Nat.zero_add] at h

@[simp] theorem size_reassembled (s : Store) : (reassembled s).size = s.size :=
  (Store.size_ofList _).trans (length_assemble s)

theorem getElem?_assemble (h : a < s.size) :
    (assemble (disassemble s))[a]? = some ((reassembled s).get a) :=
  Store.getElem?_toList_image (s := reassembled s) (by rwa [size_reassembled])

theorem cells_reassembled {l : Line} (hl : l ∈ disassemble s) {k : Nat} (hk : k < l.size) :
    l.cells[k]? = some ((reassembled s).get (l.address + k)) := by
  have ht := tiles_disassemble s
  have hle := (ht.address_bounds hl).2
  rw [← ht.getElem?_assemble hl hk, Nat.sub_zero, getElem?_assemble (by omega)]

theorem word_reassembled (hl : .code a i ∈ disassemble s) : (reassembled s).get a = i.word :=
  (Option.some.inj (cells_reassembled hl i.width_pos)).symm

theorem toInt_reassembled (hl : .code a i ∈ disassemble s) :
    ((reassembled s).get a).toInt = (s.get a).toInt % 10 ^ (i.opcode.arity + 2) := by
  have hd : Instruction.decode s a = .ok i := reads_of_mem_disassemble hl
  rw [word_reassembled hl, (Instruction.decode_iff_word.mp hd).2.1]

theorem operand_reassembled (hl : .code a i ∈ disassemble s) {k : Nat} (hk : k < i.opcode.arity) :
    (reassembled s).get (a + 1 + k) = s.get (a + 1 + k) := by
  have hd : Instruction.decode s a = .ok i := reads_of_mem_disassemble hl
  have hr := (Instruction.decode_iff_word.mp hd).2.2
  have hc := cells_reassembled hl (k := k + 1) (Nat.succ_lt_succ hk)
  rw [Line.cells, Instruction.cells, hr, List.getElem?_cons_succ, Store.slice, List.getElem?_map,
    List.getElem?_range hk, Line.address, show a + (k + 1) = a + 1 + k by omega] at hc
  exact (Option.some.inj hc).symm

theorem data_reassembled (hl : .data a w ∈ disassemble s) : (reassembled s).get a = s.get a := by
  have hw : w = s.get a := (reads_of_mem_disassemble hl).2
  exact (Option.some.inj (cells_reassembled hl Nat.one_pos)).symm.trans hw

/-- Only the words of instructions can have changed. -/
theorem get_reassembled (h : a < s.size) (hno : ∀ i, .code a i ∉ disassemble s) :
    (reassembled s).get a = s.get a := by
  obtain ⟨l, hl, h₀, h₁⟩ := (tiles_disassemble s).exists_covers (Nat.zero_le a) h
  cases l with
  | data b w =>
    obtain rfl : b = a := Nat.le_antisymm h₀ (Nat.lt_succ_iff.mp h₁)
    exact data_reassembled hl
  | code b i =>
    -- the cell is not the first of the instruction, and so it holds an operand
    have hne : b ≠ a := fun hb ↦ hno i (hb ▸ hl)
    have hlt : a < b + i.width := h₁
    have hle : b ≤ a := h₀
    rw [Instruction.width, Opcode.width] at hlt
    obtain ⟨k, rfl⟩ : ∃ k, a = b + 1 + k := ⟨a - (b + 1), by omega⟩
    exact operand_reassembled hl (by omega)

theorem reads_reassembled {l : Line} (hl : l ∈ disassemble s) : l.Reads (reassembled s) := by
  have hr := reads_of_mem_disassemble hl
  have hs := size_reassembled s
  cases l with
  | code a i =>
    have hc := (Instruction.reads_of_decode hr).1
    refine Instruction.decode_of_low_digits hc ?_ hs (fun k ↦ operand_reassembled hl) hr
    rw [toInt_reassembled hl, Int.emod_emod_of_dvd _ dvd_rfl]
  | data a w =>
    obtain ⟨⟨e, he⟩, hw⟩ := hr
    have hg := data_reassembled hl
    have hu := (Instruction.undecodable_of_decode he).of_word hg.symm hs.symm
    exact ⟨⟨e, hu.decode_eq⟩, hw.trans hg.symm⟩

theorem disassemble_reassembled (s : Store) : disassemble (reassembled s) = disassemble s := by
  have ht : Tiles 0 (disassemble s) (reassembled s).size := by
    rw [size_reassembled]
    exact tiles_disassemble s
  exact (ht.eq_linesFrom fun l ↦ reads_reassembled).symm

theorem get_reassembled_eq_iff (hl : .code a i ∈ disassemble s) :
    (reassembled s).get a = s.get a ↔
      0 ≤ (s.get a).toInt ∧ (s.get a).toInt < 10 ^ (i.opcode.arity + 2) := by
  have hpos : (0 : Int) < 10 ^ (i.opcode.arity + 2) := pow_pos (by decide) _
  rw [← Int64.toInt_inj, toInt_reassembled hl]
  constructor
  · intro h
    rw [← h]
    exact ⟨Int.emod_nonneg _ hpos.ne', Int.emod_lt_of_pos _ hpos⟩
  · intro h
    exact Int.emod_eq_of_lt h.1 h.2

theorem assemble_eq_image_iff : assemble (disassemble s) = s.image.toList ↔
    ∀ a < s.size, (reassembled s).get a = s.get a := by
  constructor
  · intro h a ha
    have hg := getElem?_assemble ha
    rw [h, Store.getElem?_toList_image ha] at hg
    exact (Option.some.inj hg).symm
  · intro h
    refine List.ext_getElem? fun a ↦ ?_
    by_cases ha : a < s.size
    · rw [getElem?_assemble ha, Store.getElem?_toList_image ha, h a ha]
    · rw [List.getElem?_eq_none (by rw [length_assemble]; omega),
        List.getElem?_eq_none (by simpa [Store.size] using ha)]

end

/-- What is disassembled and assembled again is the image up to the digits of instruction words that
are not used, and it has the same listing. -/
theorem assemble_disassemble (s : Store) :
    (assemble (disassemble s)).length = s.size ∧
    (∀ a i, .code a i ∈ disassemble s → ∃ w, (assemble (disassemble s))[a]? = some w ∧
      w.toInt = (s.get a).toInt % 10 ^ (i.opcode.arity + 2)) ∧
    (∀ a < s.size, (∀ i, .code a i ∉ disassemble s) →
      (assemble (disassemble s))[a]? = some (s.get a)) ∧
    disassemble (.ofList (assemble (disassemble s))) = disassemble s ∧
    (assemble (disassemble s) = s.image.toList ↔ ∀ a i, .code a i ∈ disassemble s →
      0 ≤ (s.get a).toInt ∧ (s.get a).toInt < 10 ^ (i.opcode.arity + 2)) := by
  refine ⟨length_assemble s, fun a i hl ↦ ?_, fun a ha hno ↦ ?_, disassemble_reassembled s, ?_⟩
  · exact ⟨_, getElem?_assemble (address_lt_of_mem_disassemble hl), toInt_reassembled hl⟩
  · rw [getElem?_assemble ha, get_reassembled ha hno]
  · -- a cell that is not the word of an instruction is unchanged in any case
    rw [assemble_eq_image_iff]
    constructor
    · intro h a i hl
      exact (get_reassembled_eq_iff hl).mp (h a (address_lt_of_mem_disassemble hl))
    · intro h a ha
      by_cases hc : ∃ i, .code a i ∈ disassemble s
      · obtain ⟨i, hl⟩ := hc
        exact (get_reassembled_eq_iff hl).mpr (h a i hl)
      · exact get_reassembled ha fun i hl ↦ hc ⟨i, hl⟩

/-- An output and a halt with digits that are not used, and between them a cell of data. -/
def sloppy : Store := .ofList [-99896, 5, 0, 3099]

theorem assemble_disassemble_of_sloppy :
    let image := assemble (disassemble sloppy)
    .code 0 (.output ⟨5, .immediate⟩) ∈ disassemble sloppy ∧
      (∃ w, image[0]? = some w ∧ w.toInt = 104) ∧ image[1]? = some 5 ∧ image[2]? = some 0 ∧
      image ≠ sloppy.image.toList ∧ disassemble (.ofList image) = disassemble sloppy := by
  intro image
  obtain ⟨-, hcode, hdata, hsame, heq⟩ := assemble_disassemble sloppy
  let ls : List Line := [.code 0 (.output ⟨5, .immediate⟩), .data 2 0, .code 3 .halt]
  have ht : Tiles 0 ls sloppy.size := .cons rfl (.cons rfl (.cons rfl (.nil 4)))
  have hr : ∀ l ∈ ls, l.Reads sloppy := by
    simp only [ls, List.forall_mem_cons]
    exact ⟨rfl, ⟨⟨_, rfl⟩, rfl⟩, rfl, nofun⟩
  have hls : ls = disassemble sloppy := ht.eq_linesFrom hr
  have hl : .code 0 (.output ⟨5, .immediate⟩) ∈ disassemble sloppy := hls ▸ List.mem_cons_self
  have hno (a : Nat) (ha : a = 1 ∨ a = 2) (i : Instruction) : .code a i ∉ disassemble sloppy := by
    rw [← hls]
    rcases ha with rfl | rfl <;> simp [ls]
  refine ⟨hl, hcode 0 _ hl, hdata 1 (by decide) (hno 1 (.inl rfl)),
    hdata 2 (by decide) (hno 2 (.inr rfl)), fun h ↦ ?_, hsame⟩
  exact absurd (heq.mp h 0 _ hl).1 (by decide)

end Intcode
