import Intcode.Disassembly
import Intcode.Proofs.Acceptance

namespace Intcode

namespace Line

/-- The line is for the cell at `a`. -/
def Covers (l : Line) (a : Nat) : Prop := l.address ≤ a ∧ a < l.address + l.size

instance (l : Line) (a : Nat) : Decidable (l.Covers a) := inferInstanceAs (Decidable (_ ∧ _))

/-- The line tells what is in the store at its address. -/
def Reads (s : Store) : Line → Prop
  | .code a i => Instruction.decode s a = .ok i
  | .data a w => (∃ e, Instruction.decode s a = .error e) ∧ w = s.get a

section
variable {s : Store} {l : Line} {pos : Nat}

theorem ofStore_of_decode {i : Instruction} (h : Instruction.decode s pos = .ok i) :
    ofStore s pos = .code pos i := by
  unfold ofStore
  rw [h]

theorem ofStore_of_not_decode {e : Failure} (h : Instruction.decode s pos = .error e) :
    ofStore s pos = .data pos (s.get pos) := by
  unfold ofStore
  rw [h]

theorem address_ofStore (s : Store) (pos : Nat) : (ofStore s pos).address = pos := by
  unfold ofStore
  split <;> rfl

theorem reads_ofStore (s : Store) (pos : Nat) : (ofStore s pos).Reads s := by
  cases h : Instruction.decode s pos with
  | ok i =>
    rw [ofStore_of_decode h]
    exact h
  | error e =>
    rw [ofStore_of_not_decode h]
    exact ⟨⟨e, h⟩, rfl⟩

theorem Reads.eq_ofStore (h : l.Reads s) : l = ofStore s l.address := by
  cases l with
  | code a i => exact (ofStore_of_decode h).symm
  | data a w =>
    obtain ⟨⟨e, he⟩, rfl⟩ := h
    exact (ofStore_of_not_decode he).symm

theorem Reads.code_iff (h : l.Reads s) (i : Instruction) :
    l = .code l.address i ↔ Instruction.decode s l.address = .ok i := by
  constructor
  · intro hl
    rwa [hl] at h
  · intro hd
    exact h.eq_ofStore.trans (ofStore_of_decode hd)

theorem Reads.data_iff (h : l.Reads s) (w : Word) : l = .data l.address w ↔
    (∃ e, Instruction.decode s l.address = .error e) ∧ w = s.get l.address := by
  constructor
  · intro hl
    rwa [hl] at h
  · rintro ⟨⟨e, hd⟩, rfl⟩
    exact h.eq_ofStore.trans (ofStore_of_not_decode hd)

theorem ofStore_le (h : pos < s.size) : pos + (ofStore s pos).size ≤ s.size := by
  unfold ofStore
  split
  · rename_i i hd
    exact (Instruction.decode_eq_ok_iff.mp hd).2.1
  · exact h

end

end Line

/-- Lines for the cells from one address up to another, each of which begins where the one before it
ends. -/
inductive Tiles : Nat → List Line → Nat → Prop
  | nil (pos : Nat) : Tiles pos [] pos
  | cons {pos stop : Nat} {l : Line} {ls : List Line} (ha : l.address = pos)
      (h : Tiles (pos + l.size) ls stop) : Tiles pos (l :: ls) stop

namespace Tiles

variable {pos stop : Nat} {ls : List Line}

theorem length_le (h : Tiles pos ls stop) : pos + ls.length ≤ stop := by
  induction h with
  | nil => exact le_rfl
  | @cons pos stop l ls _ _ ih =>
    have := l.size_pos
    rw [List.length_cons]
    omega

theorem address_bounds (h : Tiles pos ls stop) {l : Line} (hl : l ∈ ls) :
    pos ≤ l.address ∧ l.address + l.size ≤ stop := by
  induction h with
  | nil => cases hl
  | cons ha h ih =>
    rcases List.mem_cons.mp hl with rfl | hl
    · have := h.length_le
      omega
    · have := ih hl
      omega

theorem countP_covers (h : Tiles pos ls stop) (a : Nat) :
    ls.countP (·.Covers a) = if pos ≤ a ∧ a < stop then 1 else 0 := by
  induction h with
  | nil pos => rw [List.countP_nil, if_neg (by omega)]
  | @cons pos stop l ls ha h ih =>
    have hle := h.length_le
    have := l.size_pos
    have hc : l.Covers a ↔ pos ≤ a ∧ a < pos + l.size := by rw [Line.Covers, ha]
    rw [List.countP_cons, ih]
    simp only [decide_eq_true_eq, hc]
    split <;> split <;> split <;> omega

end Tiles

section
variable {s t : Store} {pos : Nat} {ls : List Line}

theorem tiles_linesFrom (h : pos ≤ s.size) : Tiles pos (linesFrom s pos) s.size := by
  fun_induction linesFrom s pos with
  | case1 pos hpos l ih => exact .cons (Line.address_ofStore s pos) (ih (Line.ofStore_le hpos))
  | case2 pos hpos =>
    have hp : pos = s.size := by omega
    exact hp ▸ .nil pos

theorem reads_of_mem_linesFrom {l : Line} (h : l ∈ linesFrom s pos) : l.Reads s := by
  fun_induction linesFrom s pos with
  | case1 pos hpos m ih =>
    rcases List.mem_cons.mp h with rfl | h
    · exact Line.reads_ofStore s pos
    · exact ih h
  | case2 => cases h

/-- There is no other way to tell what is in the store line by line. -/
theorem Tiles.eq_linesFrom (h : Tiles pos ls s.size) (hr : ∀ l ∈ ls, l.Reads s) :
    ls = linesFrom s pos := by
  -- by induction on the lines: where the first of them begins there is nothing else to read
  generalize hstop : s.size = stop at h
  induction h with
  | nil pos => rw [linesFrom, if_neg (by omega)]
  | @cons pos stop l ls ha h ih =>
    subst hstop
    have hpos := h.length_le
    have hsize := l.size_pos
    have hl := (hr l List.mem_cons_self).eq_ofStore
    rw [ha] at hl
    rw [linesFrom, if_pos (by omega), ← hl,
      ih (fun l hl ↦ hr l (List.mem_cons_of_mem _ hl)) rfl]

theorem tiles_disassemble (s : Store) : Tiles 0 (disassemble s) s.size :=
  tiles_linesFrom (Nat.zero_le _)

theorem reads_of_mem_disassemble {l : Line} (h : l ∈ disassemble s) : l.Reads s :=
  reads_of_mem_linesFrom h

theorem address_lt_of_mem_disassemble {l : Line} (h : l ∈ disassemble s) : l.address < s.size := by
  have := ((tiles_disassemble s).address_bounds h).2
  have := l.size_pos
  omega

theorem Line.Reads.of_image {l : Line} (hi : s.image = t.image) (hl : l.address < s.size)
    (h : l.Reads s) : l.Reads t := by
  cases l with
  | code a i => exact (Instruction.decode_eq_of_image hi hl).symm.trans h
  | data a w =>
    obtain ⟨⟨e, he⟩, hw⟩ := h
    exact ⟨⟨e, (Instruction.decode_eq_of_image hi hl).symm.trans he⟩,
      hw.trans (Store.get_eq_of_image hi hl)⟩

/-- A listing shows nothing that is past the image. -/
theorem disassemble_eq_of_image (hi : s.image = t.image) : disassemble s = disassemble t := by
  have hs : s.size = t.size := congrArg Array.size hi
  refine Tiles.eq_linesFrom (hs ▸ tiles_disassemble s) fun l hl ↦ ?_
  exact (reads_of_mem_disassemble hl).of_image hi (address_lt_of_mem_disassemble hl)

end

namespace Machine

variable {π : Type} [Producer π]

/-- A listing divides the image into instructions and single cells, and they are what a machine
executes and where it fails. -/
theorem disassemble_partitions (s : Store) :
    Tiles 0 (disassemble s) s.size ∧
    (disassemble s).length ≤ s.size ∧
    (∀ a, (disassemble s).countP (·.Covers a) = if a < s.size then 1 else 0) ∧
    (∀ l ∈ disassemble s,
      (∀ i, l = .code l.address i ↔ Instruction.decode s l.address = .ok i) ∧
      ∀ w, l = .data l.address w ↔
        (∃ e, Instruction.decode s l.address = .error e) ∧ w = s.get l.address) ∧
    (∀ ls, Tiles 0 ls s.size → (∀ l ∈ ls, l.Reads s) → ls = disassemble s) ∧
    (∀ t : Store, s.image = t.image → disassemble s = disassemble t) ∧
    ∀ m : Machine π, m.status = .running → m.store = s → ∀ l ∈ disassemble s, l.address = m.pos →
      (∀ i, l = .code m.pos i → m.step = m.carryOut i) ∧
      ∀ w, l = .data m.pos w →
        ∃ e, m.step = m.fail e ∧ e.kind = .decode ∧ e.address = some m.pos := by
  have ht := tiles_disassemble s
  refine ⟨ht, by simpa using ht.length_le, by simpa using ht.countP_covers, fun l hl ↦ ?_,
    fun ls h hr ↦ h.eq_linesFrom hr, fun t ↦ disassemble_eq_of_image, fun m h hm l hl ha ↦ ?_⟩
  · have hr := reads_of_mem_disassemble hl
    exact ⟨hr.code_iff, hr.data_iff⟩
  · subst hm
    have hr := reads_of_mem_disassemble hl
    have hpos := address_lt_of_mem_disassemble hl
    rw [ha] at hpos
    refine ⟨fun i hi ↦ step_of_decode h ?_, fun w hw ↦ ?_⟩
    · rwa [hi] at hr
    · rw [hw] at hr
      obtain ⟨⟨e, he⟩, -⟩ := hr
      exact ⟨e, step_of_not_decode h hpos he, Instruction.decode_fails m.store m.pos e he⟩

/-- An image with a cell of data between two instructions, and one that is cut off. -/
def mixed : Store := (Store.ofList [1101, 2, 3, 5, 0, 104, 7, 1]).set 8 99

theorem disassemble_partitions_of_mixed :
    let ls : List Line :=
      [.code 0 (.binary .add ⟨2, .immediate⟩ ⟨3, .immediate⟩ ⟨5, .position⟩), .data 4 0,
        .code 5 (.output ⟨7, .immediate⟩), .data 7 1]
    let m : Machine Empty := { store := mixed, pos := 5 }
    let n : Machine Empty := { store := mixed, pos := 7 }
    disassemble mixed = ls ∧ disassemble (.ofList [1101, 2, 3, 5, 0, 104, 7, 1]) = ls ∧
      m.step = m.carryOut (.output ⟨7, .immediate⟩) ∧
      ∃ e, n.step = n.fail e ∧ e.kind = .decode ∧ e.address = some 7 := by
  intro ls m n
  obtain ⟨-, -, -, -, hunique, himage, hstep⟩ := @disassemble_partitions Empty _ mixed
  have ht : Tiles 0 ls mixed.size := .cons rfl (.cons rfl (.cons rfl (.cons rfl (.nil 8))))
  have hr : ∀ l ∈ ls, l.Reads mixed := by
    simp only [ls, List.forall_mem_cons]
    exact ⟨rfl, ⟨⟨_, rfl⟩, rfl⟩, rfl, ⟨⟨_, rfl⟩, rfl⟩, nofun⟩
  have hls : disassemble mixed = ls := (hunique ls ht hr).symm
  have hm := hstep m rfl rfl (.code 5 (.output ⟨7, .immediate⟩)) (by simp [hls, ls]) rfl
  have hn := hstep n rfl rfl (.data 7 1) (by simp [hls, ls]) rfl
  have hi := himage (.ofList [1101, 2, 3, 5, 0, 104, 7, 1]) rfl
  exact ⟨hls, hi.symm.trans hls, hm.1 _ rfl, hn.2 1 rfl⟩

end Machine

end Intcode
