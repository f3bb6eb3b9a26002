import Intcode.Proofs.Encoding
import Intcode.Proofs.Execution

namespace Intcode

theorem findSome?_range_eq_some_iff {α : Type} {f : Nat → Option α} {n : Nat} {a : α} :
    (List.range n).findSome? f = some a ↔ ∃ k < n, f k = some a ∧ ∀ j < k, f j = none := by
  induction n with
  | zero => simp
  | succ n ih =>
    rw [List.range_succ, List.findSome?_append, Option.or_eq_some_iff, ih,
      List.findSome?_eq_none_iff]
    constructor
    · intro h
      rcases h with ⟨k, hk, h⟩ | ⟨hno, h⟩
      · exact ⟨k, Nat.lt_succ_of_lt hk, h⟩
      · exact ⟨n, Nat.lt_succ_self n, by simpa using h, fun j hj ↦ hno j (List.mem_range.mpr hj)⟩
    · intro h
      obtain ⟨k, hk, ha, hlow⟩ := h
      rcases Nat.lt_succ_iff_lt_or_eq.mp hk with hk | rfl
      · exact .inl ⟨k, hk, ha, hlow⟩
      · exact .inr ⟨fun j hj ↦ hlow j (List.mem_range.mp hj), by simp [ha]⟩

theorem Store.get_eq_of_image {s t : Store} {a : Nat} (hi : s.image = t.image) (ha : a < s.size) :
    s.get a = t.get a := by
  have hs : a < s.image.size := ha
  have ht : a < t.image.size := hi ▸ ha
  rw [get, get, dif_pos hs, dif_pos ht]
  simp only [hi]

namespace Instruction

/-- The digit of the word at `pos` that names the mode of operand `k`. -/
def modeDigit (s : Store) (pos k : Nat) : Int := (s.get pos).toInt / 10 ^ (k + 2) % 10

/-- There is no instruction at `pos`, and this is the failure that says why. The modes are looked at
only if all cells are in the image, and the first that is unknown is told. -/
inductive Undecodable (s : Store) (pos : Nat) : Failure → Prop
  | opcode {v : Word} (hv : v.toInt = (s.get pos).toInt % 100)
      (hc : ∀ c : Opcode, (s.get pos).toInt % 100 ≠ c.number) :
      Undecodable s pos ⟨.decode, "UNKNOWN OPCODE", some v, some pos⟩
  | truncated {c : Opcode} (hc : (s.get pos).toInt % 100 = c.number)
      (hw : s.size < pos + c.width) :
      Undecodable s pos ⟨.decode, "TRUNCATED INSTRUCTION", some (s.get pos), some pos⟩
  | mode {c : Opcode} {k : Nat} {v : Word} (hc : (s.get pos).toInt % 100 = c.number)
      (hw : pos + c.width ≤ s.size) (hk : k < c.arity) (hv : v.toInt = modeDigit s pos k)
      (hbad : modeDigit s pos k ∉ [0, 1, 2]) (hlow : ∀ j < k, modeDigit s pos j ∈ [0, 1, 2]) :
      Undecodable s pos ⟨.decode, "UNKNOWN MODE", some v, some pos⟩

section
variable {s t : Store} {pos : Nat} {e : Failure}

theorem modeDigit_bounds (s : Store) (pos k : Nat) :
    0 ≤ modeDigit s pos k ∧ modeDigit s pos k < 10 :=
  ⟨Int.emod_nonneg _ (by decide), Int.emod_lt_of_pos _ (by decide)⟩

theorem exists_mode_iff (s : Store) (pos k : Nat) :
    (∃ mode : Mode, digitAt (s.get pos).toInt (k + 2) = mode.digit) ↔
      modeDigit s pos k ∈ [0, 1, 2] := by
  rw [digitAt_eq, Mode.exists_digit_iff, modeDigit]
  simp

theorem failure?_operandAt (s : Store) (pos k : Nat) : failure? (operandAt s pos k) =
    if modeDigit s pos k ∈ [0, 1, 2] then none
    else some (.unknownMode (Int64.ofInt (modeDigit s pos k))) := by
  obtain ⟨h₀, h₁⟩ := modeDigit_bounds s pos k
  split
  · rename_i h
    obtain ⟨mode, hm⟩ := (exists_mode_iff s pos k).mpr h
    have ho : operandAt s pos k = .ok ⟨s.get (pos + 1 + k), mode⟩ :=
      operandAt_eq_ok_iff.mpr ⟨rfl, hm⟩
    rw [ho]
    rfl
  · rename_i h
    have hno : Mode.ofDigit? (modeDigit s pos k) = none := by
      refine Option.eq_none_iff_forall_ne_some.mpr fun mode hm ↦ h ?_
      have hd := Mode.exists_digit_iff.mp ⟨mode, Mode.ofDigit?_eq_some_iff.mp hm⟩
      simpa using hd
    have hw := Word.toInt_ofInt_of_digits h₀ (by omega)
    rw [operandAt, digitAt_eq, ← modeDigit, Mode.ofWord, hw, hno]
    rfl

/-- The operands are looked at in order. -/
theorem failure?_withOpcode (s : Store) (pos : Nat) (c : Opcode) :
    failure? (withOpcode s pos c) =
      (List.range c.arity).findSome? fun k ↦ failure? (operandAt s pos k) := by
  -- the range is written out for each arity, and then both sides look at the same operands
  cases c with
  | binary op =>
    change failure? (withOpcode s pos (.binary op)) = [0, 1, 2].findSome? _
    simp only [List.findSome?_cons, withOpcode]
    cases operandAt s pos 0 with
    | error e => rfl
    | ok left =>
      cases operandAt s pos 1 with
      | error e => rfl
      | ok right => cases operandAt s pos 2 <;> rfl
  | jumpIf on =>
    change failure? (withOpcode s pos (.jumpIf on)) = [0, 1].findSome? _
    simp only [List.findSome?_cons, withOpcode]
    cases operandAt s pos 0 with
    | error e => rfl
    | ok test => cases operandAt s pos 1 <;> rfl
  | input | output | adjustBase =>
    change failure? (withOpcode s pos _) = [0].findSome? _
    simp only [List.findSome?_cons, withOpcode]
    cases operandAt s pos 0 <;> rfl
  | halt => rfl

theorem withOpcode_eq_error_iff {c : Opcode} : withOpcode s pos c = .error e ↔
    ∃ k < c.arity, e = .unknownMode (Int64.ofInt (modeDigit s pos k)) ∧
      modeDigit s pos k ∉ [0, 1, 2] ∧ ∀ j < k, modeDigit s pos j ∈ [0, 1, 2] := by
  have hk (k : Nat) : failure? (operandAt s pos k) = some e ↔
      e = .unknownMode (Int64.ofInt (modeDigit s pos k)) ∧ modeDigit s pos k ∉ [0, 1, 2] := by
    rw [failure?_operandAt]
    split <;> simp_all [eq_comm]
  have hj (j : Nat) : failure? (operandAt s pos j) = none ↔ modeDigit s pos j ∈ [0, 1, 2] := by
    rw [failure?_operandAt]
    split <;> simp_all
  rw [← failure?_eq_some_iff, failure?_withOpcode, findSome?_range_eq_some_iff]
  simp only [hk, hj, and_assoc]

theorem decode_of_opcode {c : Opcode} (hc : (s.get pos).toInt % 100 = c.number) :
    decode s pos = Except.mapError (Failure.locate · pos)
      (if pos + c.width ≤ s.size then withOpcode s pos c else .error (.truncated (s.get pos))) := by
  have hw : Opcode.ofWord (Int64.ofInt ((s.get pos).toInt % 100)) = .ok c := by
    rw [Opcode.ofWord_eq_ok_iff, hc, Word.toInt_ofInt_of_digits (Int.natCast_nonneg _) ?_]
    · exact c.ofNumber?_number
    · exact_mod_cast c.number_lt
  simp only [decode, hw]
  rfl

theorem decode_of_unknown {v : Word} (hv : v.toInt = (s.get pos).toInt % 100)
    (hc : ∀ c : Opcode, (s.get pos).toInt % 100 ≠ c.number) :
    decode s pos = .error ⟨.decode, "UNKNOWN OPCODE", some v, some pos⟩ := by
  have hno : Opcode.ofNumber? v.toInt = none :=
    Option.eq_none_iff_forall_ne_some.mpr fun c h ↦
      hc c (hv.symm.trans (Opcode.ofNumber?_eq_some_iff.mp h))
  simp only [decode, ← hv, Int64.ofInt_toInt, Opcode.ofWord, hno]
  rfl

theorem Undecodable.decode_eq (h : Undecodable s pos e) : decode s pos = .error e := by
  cases h with
  | opcode hv hc => exact decode_of_unknown hv hc
  | truncated hc hw =>
    rw [decode_of_opcode hc, if_neg (Nat.not_le.mpr hw)]
    rfl
  | @mode c k v hc hw hk hv hbad hlow =>
    have he : Int64.ofInt (modeDigit s pos k) = v := by rw [← hv, Int64.ofInt_toInt]
    have hfail : withOpcode s pos c = .error (.unknownMode v) :=
      withOpcode_eq_error_iff.mpr ⟨k, hk, by rw [he], hbad, hlow⟩
    rw [decode_of_opcode hc, if_pos hw, hfail]
    rfl

theorem undecodable_of_decode (h : decode s pos = .error e) : Undecodable s pos e := by
  have h₀ : 0 ≤ (s.get pos).toInt % 100 := Int.emod_nonneg _ (by decide)
  have h₁ : (s.get pos).toInt % 100 < 100 := Int.emod_lt_of_pos _ (by decide)
  by_cases hc : ∃ c : Opcode, (s.get pos).toInt % 100 = c.number
  · obtain ⟨c, hc⟩ := hc
    rw [decode_of_opcode hc] at h
    by_cases hw : pos + c.width ≤ s.size
    · rw [if_pos hw] at h
      cases ho : withOpcode s pos c with
      | ok i => rw [ho] at h; cases h
      | error f =>
        rw [ho] at h
        cases h
        obtain ⟨k, hk, rfl, hbad, hlow⟩ := withOpcode_eq_error_iff.mp ho
        obtain ⟨hd₀, hd₁⟩ := modeDigit_bounds s pos k
        exact .mode hc hw hk (Word.toInt_ofInt_of_digits hd₀ (by omega)) hbad hlow
    · rw [if_neg hw] at h
      cases h
      exact .truncated hc (Nat.lt_of_not_le hw)
  · have hv := Word.toInt_ofInt_of_digits h₀ h₁
    have hc' : ∀ c : Opcode, (s.get pos).toInt % 100 ≠ c.number := fun c h ↦ hc ⟨c, h⟩
    cases h.symm.trans (decode_of_unknown hv hc')
    exact .opcode hv hc'

theorem decode_eq_error_iff : decode s pos = .error e ↔ Undecodable s pos e :=
  ⟨undecodable_of_decode, Undecodable.decode_eq⟩

/-- What is wrong with a word does not depend on the cells after it. -/
theorem Undecodable.of_word (h : Undecodable s pos e) (hg : s.get pos = t.get pos)
    (hs : s.size = t.size) : Undecodable t pos e := by
  have hd (k : Nat) : modeDigit s pos k = modeDigit t pos k := by rw [modeDigit, modeDigit, hg]
  cases h with
  | opcode hv hc =>
    rw [hg] at hv
    simp only [hg] at hc
    exact .opcode hv hc
  | truncated hc hw =>
    rw [hg] at hc ⊢
    rw [hs] at hw
    exact .truncated hc hw
  | mode hc hw hk hv hbad hlow =>
    rw [hg] at hc
    rw [hs] at hw
    simp only [hd] at hv hbad hlow
    exact .mode hc hw hk hv hbad hlow

variable {i : Instruction}

theorem emod_hundred {z : Int} (n : Nat) : z % 10 ^ (n + 2) % 100 = z % 100 :=
  Int.emod_emod_of_dvd z ⟨10 ^ n, by ring⟩

theorem decode_of_low_digits {c : Opcode} (hc : (s.get pos).toInt % 100 = c.number)
    (hz : (t.get pos).toInt % 10 ^ (c.arity + 2) = (s.get pos).toInt % 10 ^ (c.arity + 2))
    (hs : t.size = s.size) (hcells : ∀ k < c.arity, t.get (pos + 1 + k) = s.get (pos + 1 + k))
    (hd : decode s pos = .ok i) : decode t pos = .ok i := by
  have hi : i.opcode = c := by
    have hn := (decode_eq_ok_iff.mp hd).1
    rw [hc, c.ofNumber?_number] at hn
    exact (Option.some.inj hn).symm
  obtain ⟨hw, hm, hr⟩ := decode_iff_word.mp hd
  rw [hi] at hm hr
  refine decode_iff_word.mpr ⟨hs ▸ hw, by rw [hi, hz, hm], ?_⟩
  rw [hi, hr, Store.slice, Store.slice]
  exact List.map_congr_left fun k hk ↦ (hcells k (List.mem_range.mp hk)).symm

/-- The digits above the modes of the operands do not matter. -/
theorem decode_iff_of_low_digits {c : Opcode} (hc : (s.get pos).toInt % 100 = c.number)
    (hz : (t.get pos).toInt % 10 ^ (c.arity + 2) = (s.get pos).toInt % 10 ^ (c.arity + 2))
    (hs : t.size = s.size) (hcells : ∀ k < c.arity, t.get (pos + 1 + k) = s.get (pos + 1 + k)) :
    decode t pos = .ok i ↔ decode s pos = .ok i := by
  have hc' : (t.get pos).toInt % 100 = c.number := by
    rw [← emod_hundred c.arity, hz, emod_hundred, hc]
  exact ⟨decode_of_low_digits hc' hz.symm hs.symm fun k hk ↦ (hcells k hk).symm,
    decode_of_low_digits hc hz hs hcells⟩

/-- An instruction is made up of its cells. -/
theorem decode_of_cells (hd : decode s pos = .ok i) (hs : s.size = t.size)
    (hcells : ∀ k < i.width, s.get (pos + k) = t.get (pos + k)) : decode t pos = .ok i := by
  have hg : s.get pos = t.get pos := hcells 0 i.width_pos
  have hc := Opcode.ofNumber?_eq_some_iff.mp (decode_eq_ok_iff.mp hd).1
  refine decode_of_low_digits hc (by rw [hg]) hs.symm (fun k hk ↦ ?_) hd
  rw [Nat.add_assoc, hcells (1 + k) (by rw [width, Opcode.width]; omega)]

/-- What is past the image makes no difference to what is in it. -/
theorem decode_eq_of_image (hi : s.image = t.image) (hpos : pos < s.size) :
    decode s pos = decode t pos := by
  have hs : s.size = t.size := congrArg Array.size hi
  cases hd : decode s pos with
  | ok i =>
    have hw := (decode_eq_ok_iff.mp hd).2.1
    exact (decode_of_cells hd hs fun k hk ↦ Store.get_eq_of_image hi (by omega)).symm
  | error e =>
    have hu := (undecodable_of_decode hd).of_word (Store.get_eq_of_image hi hpos) hs
    exact hu.decode_eq.symm

theorem exists_decode_iff_digits : (∃ i, decode s pos = .ok i) ↔
    ∃ c : Opcode, (s.get pos).toInt % 100 = c.number ∧ pos + c.width ≤ s.size ∧
      ∀ k < c.arity, modeDigit s pos k ∈ [0, 1, 2] := by
  rw [exists_decode_iff]
  simp only [Opcode.ofNumber?_eq_some_iff, exists_mode_iff]

theorem reads_of_decode (hd : decode s pos = .ok i) :
    (s.get pos).toInt % 100 = i.opcode.number ∧ ∀ k o, i.operands[k]? = some o →
      o.raw = s.get (pos + 1 + k) ∧ modeDigit s pos k = o.mode.digit := by
  obtain ⟨hc, -, ho⟩ := decode_eq_ok_iff.mp hd
  refine ⟨Opcode.ofNumber?_eq_some_iff.mp hc, fun k o hk ↦ ?_⟩
  obtain ⟨hr, hm⟩ := ho k o hk
  exact ⟨hr, by rw [modeDigit, ← digitAt_eq, hm]⟩

theorem not_decode_of_size_le (h : s.size ≤ pos) (i : Instruction) : decode s pos ≠ .ok i := by
  intro hd
  have hw := (decode_eq_ok_iff.mp hd).2.1
  have := i.width_pos
  omega

end

end Instruction

namespace Machine

variable {π : Type} [Producer π] {m : Machine π} {i : Instruction} {e : Failure}

/-- Where there is an instruction, no step fails as if there were none, unless a producer does. -/
theorem answer_of_decode_failure (h : m.status = .running)
    (hd : Instruction.decode m.store m.pos = .ok i) (hs : m.step.1 = .error e)
    (hk : e.kind = .decode) : m.inputs = [] ∧ ∃ s f, m.producer = some s ∧
      (Producer.answer s m.toProcessor).1 = .error f ∧ f.kind = .decode ∧ e = f.locate m.pos := by
  obtain ⟨n, hs⟩ : ∃ n, m.step = (.error e, n) := ⟨m.step.2, by rw [← hs]⟩
  cases step_eq_iff.mp hs with
  | fault hf => cases h.symm.trans hf
  | stuck _ hp =>
    rw [plan_of_decode hd, ← Processor.planFor_eq] at hp
    -- what can be wrong with operands and results is never that there is no instruction
    have hf := (m.planFor_fails i).mapError (Q := Failure.OfExecution)
      (f := (Failure.locate · m.pos)) (fun _ hf ↦ hf) e hp
    rcases hf with hf | hf | hf <;> cases hk.symm.trans hf
  | @refused m' _ _ f _ hp ht =>
    have hr : m.refusal? = some f := by
      rw [refusal?_eq, ht]
      rfl
    obtain ⟨hi, ⟨s, hs, ha⟩ | ⟨-, hf⟩⟩ := kind_of_refusal? hr
    · exact ⟨hi, s, f, hs, ha, hk, by rw [(takeInput_frame ht).2]⟩
    · cases hk.symm.trans hf
  | leave => cases hk

/-- Exactly the words that are instructions are decoded, and any other is refused for the first
thing that is wrong with it. -/
theorem decode_exactly :
    (∀ (s : Store) (pos : Nat),
      ((∃ i, Instruction.decode s pos = .ok i) ↔
        ∃ c : Opcode, (s.get pos).toInt % 100 = c.number ∧ pos + c.width ≤ s.size ∧
          ∀ k < c.arity, Instruction.modeDigit s pos k ∈ [0, 1, 2]) ∧
      (∀ i, Instruction.decode s pos = .ok i → (s.get pos).toInt % 100 = i.opcode.number ∧
        ∀ k o, i.operands[k]? = some o →
          o.raw = s.get (pos + 1 + k) ∧ Instruction.modeDigit s pos k = o.mode.digit) ∧
      (∀ e, Instruction.decode s pos = .error e ↔ Instruction.Undecodable s pos e) ∧
      (s.size ≤ pos → ∀ i, Instruction.decode s pos ≠ .ok i)) ∧
    (∀ (s t : Store) (pos : Nat) (c : Opcode), (s.get pos).toInt % 100 = c.number →
      (t.get pos).toInt % 10 ^ (c.arity + 2) = (s.get pos).toInt % 10 ^ (c.arity + 2) →
      t.size = s.size → (∀ k < c.arity, t.get (pos + 1 + k) = s.get (pos + 1 + k)) →
      ∀ i, Instruction.decode t pos = .ok i ↔ Instruction.decode s pos = .ok i) ∧
    (∀ (s t : Store) (pos : Nat), s.image = t.image → pos < s.size →
      Instruction.decode s pos = Instruction.decode t pos) ∧
    ∀ m : Machine π, m.status = .running → m.pos < m.store.size →
      (∀ e, Instruction.decode m.store m.pos = .error e → m.step = m.fail e) ∧
      ∀ i e, Instruction.decode m.store m.pos = .ok i → m.step.1 = .error e → e.kind = .decode →
        m.inputs = [] ∧ ∃ s f, m.producer = some s ∧
          (Producer.answer s m.toProcessor).1 = .error f ∧ f.kind = .decode ∧
            e = f.locate m.pos := by
  refine ⟨fun s pos ↦ ⟨Instruction.exists_decode_iff_digits, fun i ↦ Instruction.reads_of_decode,
    fun e ↦ Instruction.decode_eq_error_iff, Instruction.not_decode_of_size_le⟩,
    fun s t pos c hc hz hs hcells i ↦ Instruction.decode_iff_of_low_digits hc hz hs hcells,
    fun s t pos ↦ Instruction.decode_eq_of_image,
    fun m h hpos ↦ ⟨fun e ↦ step_of_not_decode h hpos, fun i e ↦ answer_of_decode_failure h⟩⟩

/-- An output of 5 with digits above the mode that are not used, and then a jump that is too long.
The cell past the image would be an instruction. -/
def padded : Store := (Store.ofList [-99896, 5, 99]).set 3 99

/-- A machine whose producer fails as if there were no instruction. -/
def misled : Machine Script := (load [3, 0]).attach (.refuse { kind := .decode })

theorem decode_exactly_of_padded :
    let i : Instruction := .output ⟨5, .immediate⟩
    let m : Machine Script := { store := padded, pos := 1 }
    Instruction.decode (.ofList [104, 5, 99]) 0 = .ok i ∧ Instruction.decode padded 0 = .ok i ∧
      (∀ j, Instruction.decode padded 3 ≠ .ok j) ∧
      m.step = m.fail ⟨.decode, "TRUNCATED INSTRUCTION", some 5, some 1⟩ ∧
      misled.step.1 = .error ⟨.decode, "", none, some 0⟩ ∧
      ∃ s f, misled.producer = some s ∧ (Producer.answer s misled.toProcessor).1 = .error f := by
  intro i m
  obtain ⟨hdecode, hunused, himage, hstep⟩ := @decode_exactly Script _
  have hd : Instruction.decode (.ofList [104, 5, 99]) 0 = .ok i := rfl
  have hp : Instruction.decode (.ofList [-99896, 5, 99]) 0 = .ok i :=
    (hunused (.ofList [104, 5, 99]) _ 0 .output rfl rfl rfl (by decide) i).mpr hd
  have hi : Instruction.decode padded 0 = .ok i :=
    (himage padded (.ofList [-99896, 5, 99]) 0 rfl (by decide)).trans hp
  have hu : Instruction.Undecodable padded 1 ⟨.decode, "TRUNCATED INSTRUCTION", some 5, some 1⟩ :=
    .truncated (c := .jumpIf true) rfl (by decide)
  have hn : misled.step.1 = .error ⟨.decode, "", none, some 0⟩ := rfl
  obtain ⟨-, s, f, hs, hf, -⟩ :=
    (hstep misled rfl (by decide)).2 (.input ⟨0, .position⟩) _ rfl hn rfl
  exact ⟨hd, hi, (hdecode padded 3).2.2.2 (by decide),
    (hstep m rfl (by decide)).1 _ (((hdecode padded 1).2.2.1 _).mpr hu), hn, s, f, hs, hf⟩

end Machine

end Intcode
