import Intcode.Proofs.Lifecycle
import Intcode.Proofs.Numeral

namespace Intcode

def failure? {α : Type} : Except Failure α → Option Failure
  | .error e => some e
  | .ok _ => none

theorem failure?_eq_some_iff {α : Type} {x : Except Failure α} {e : Failure} :
    failure? x = some e ↔ x = .error e := by
  cases x <;> simp [failure?]

/-- The first of the hazards that is there, and without any the result. -/
def guarded {α : Type} (hazards : List (Option Failure)) (a : α) : Except Failure α :=
  match hazards.findSome? id with
  | some e => .error e
  | none => .ok a

section
variable {α β : Type} {a : α} {hs : List (Option Failure)}

theorem guarded_of_some {e : Failure} (h : hs.findSome? id = some e) :
    guarded hs a = .error e := by
  rw [guarded, h]

theorem guarded_of_none (h : hs.findSome? id = none) : guarded hs a = .ok a := by
  rw [guarded, h]

theorem failure?_guarded_singleton (h : Option Failure) : failure? (guarded [h] a) = h := by
  cases h <;> rfl

theorem mapError_guarded_eq_error_iff {f : Failure → Failure} {e : Failure} :
    (guarded hs a).mapError f = .error e ↔ ∃ g, hs.findSome? id = some g ∧ e = f g := by
  cases hg : hs.findSome? id with
  | some g =>
    rw [guarded_of_some hg]
    simp [Except.mapError, eq_comm]
  | none =>
    rw [guarded_of_none hg]
    simp [Except.mapError]

theorem guarded_bind {h : Option Failure} {b : β} {k : α → Except Failure β}
    (hk : k a = guarded hs b) : guarded [h] a >>= k = guarded (h :: hs) b := by
  cases h with
  | none => exact hk
  | some e => rfl

end

namespace Word

def unfit? (z : Int) : Option Failure := if Fits z then none else some .overflow

theorem ofInt?_of_fits {z : Int} (h : Fits z) : ofInt? z = some (Int64.ofInt z) := if_pos h

theorem ofInt?_of_not_fits {z : Int} (h : ¬Fits z) : ofInt? z = none := if_neg h

theorem exact_eq (z : Int) : exact z = guarded [unfit? z] (Int64.ofInt z) := by
  rw [exact, unfit?]
  by_cases hz : Fits z
  · rw [ofInt?_of_fits hz, if_pos hz]
    rfl
  · rw [ofInt?_of_not_fits hz, if_neg hz]
    rfl

end Word

/-- A comparison always has a result. -/
def BinaryOp.unfit? (op : BinaryOp) (x y : Word) : Option Failure :=
  match op with
  | .add => Word.unfit? (x.toInt + y.toInt)
  | .multiply => Word.unfit? (x.toInt * y.toInt)
  | .lessThan | .equals => none

theorem BinaryOp.exact_eq (op : BinaryOp) (x y : Word) :
    Word.exact (op.exact x.toInt y.toInt) =
      guarded [op.unfit? x y] (Int64.ofInt (op.exact x.toInt y.toInt)) := by
  cases op with
  | add | multiply => exact Word.exact_eq _
  | lessThan | equals =>
    rw [exact]
    split <;> rfl

namespace Operand

variable (o : Operand) (s : Store) (base : Word)

/-- The address of the operand's cell, over the integers. -/
def place : Int := if o.mode = .relative then o.raw.toInt + base.toInt else o.raw.toInt

/-- The word that the operand stands for. -/
def content : Word := if o.mode = .immediate then o.raw else s.get (o.place base).toNat

/-- No cell has an address that is no word or lies in front of the memory. -/
def Misplaced : Prop := o.place base < 0 ∨ ¬Word.Fits (o.place base)

instance : Decidable (o.Misplaced base) := inferInstanceAs (Decidable (_ ∨ _))

def misplaced? : Option Failure :=
  if ¬Word.Fits (o.place base) then some (.addressOverflow o.raw)
  else if o.place base < 0 then some (.negativeAddress (Int64.ofInt (o.place base)))
  else none

def unreadable? : Option Failure := if o.mode = .immediate then none else o.misplaced? base

def unwritable? : Option Failure :=
  if o.mode = .immediate then some (.immediateTarget o.raw) else o.misplaced? base

theorem misplaced?_kind : (o.misplaced? base).map Failure.kind =
    if o.Misplaced base then some .address else none := by
  unfold misplaced? Misplaced
  by_cases hf : Word.Fits (o.place base)
  · by_cases hn : o.place base < 0 <;> simp [hf, hn, Failure.negativeAddress]
  · simp [hf, Failure.addressOverflow]

variable {o}

theorem pointer_eq (hm : o.mode ≠ .immediate) : o.pointer base =
    if Word.Fits (o.place base) then .ok (Int64.ofInt (o.place base))
    else .error (.addressOverflow o.raw) := by
  cases hp : o.mode with
  | immediate => exact absurd hp hm
  | position =>
    have hz : o.place base = o.raw.toInt := by simp [place, hp]
    rw [pointer, hp, hz, if_pos (Word.fits_toInt o.raw), Int64.ofInt_toInt]
  | relative =>
    have hz : o.place base = o.raw.toInt + base.toInt := by simp [place, hp]
    rw [pointer, hp, hz]
    by_cases hf : Word.Fits (o.raw.toInt + base.toInt)
    · simp only [Word.ofInt?_of_fits hf, if_pos hf]
    · simp only [Word.ofInt?_of_not_fits hf, if_neg hf]

theorem target_eq_of_ne (hm : o.mode ≠ .immediate) :
    o.target base = guarded [o.misplaced? base] (o.place base).toNat := by
  rw [target, pointer_eq base hm, misplaced?]
  by_cases hf : Word.Fits (o.place base)
  · have hw := Word.toInt_ofInt_of_fits hf
    rw [if_pos hf, if_neg (not_not_intro hf)]
    change Store.address (Int64.ofInt (o.place base)) = _
    rw [Store.address, hw]
    by_cases hn : 0 ≤ o.place base
    · rw [if_pos hn, if_neg (Int.not_lt.mpr hn)]
      rfl
    · rw [if_neg hn, if_pos (Int.not_le.mp hn)]
      rfl
  · rw [if_neg hf, if_pos hf]
    rfl

variable (o)

theorem target_eq : o.target base = guarded [o.unwritable? base] (o.place base).toNat := by
  by_cases hm : o.mode = .immediate
  · rw [target, pointer, hm, unwritable?, if_pos hm]
    rfl
  · rw [unwritable?, if_neg hm]
    exact target_eq_of_ne base hm

theorem value_eq : o.value s base = guarded [o.unreadable? base] (o.content s base) := by
  by_cases hm : o.mode = .immediate
  · rw [value, if_pos hm, unreadable?, if_pos hm, content, if_pos hm]
    rfl
  · rw [value, if_neg hm, unreadable?, if_neg hm, content, if_neg hm]
    have ht := target_eq_of_ne base hm
    have hr : o.pointer base >>= s.read = (o.target base).map s.get := by
      rw [target]
      cases o.pointer base <;> rfl
    rw [hr, ht]
    cases o.misplaced? base <;> rfl

/-- Reading fails on an address that no cell has. -/
theorem value_fails : failure? (o.value s base) = o.unreadable? base ∧
    (o.unreadable? base).map Failure.kind =
      if o.mode ≠ .immediate ∧ o.Misplaced base then some .address else none := by
  refine ⟨by rw [value_eq, failure?_guarded_singleton], ?_⟩
  unfold unreadable?
  by_cases hm : o.mode = .immediate
  · simp [hm]
  · simp only [hm, if_false, not_false_eq_true, ne_eq, true_and]
    exact o.misplaced?_kind base

/-- Writing fails on such an address as well, and on an operand that has none. -/
theorem target_fails : failure? (o.target base) = o.unwritable? base ∧
    (o.unwritable? base).map Failure.kind =
      if o.mode = .immediate then some .writeTarget
      else if o.Misplaced base then some .address else none := by
  refine ⟨by rw [target_eq, failure?_guarded_singleton], ?_⟩
  unfold unwritable?
  split
  · rfl
  · exact o.misplaced?_kind base

end Operand

/-- A counter has to point into the image. -/
def Store.outside? (s : Store) (counter : Int) : Option Failure :=
  if 0 ≤ counter ∧ counter < s.size then none else some (.outOfBounds counter)

namespace Processor

variable (p : Processor)

/-- What can go wrong before the instruction changes anything, in the order in which it is
noticed. -/
def hazardsOf : Instruction → List (Option Failure)
  | .binary op left right dest =>
    [left.unreadable? p.base, right.unreadable? p.base,
      op.unfit? (left.content p.store p.base) (right.content p.store p.base),
      dest.unwritable? p.base]
  | .input dest => [dest.unwritable? p.base]
  | .output source => [source.unreadable? p.base]
  | .jumpIf on test dest =>
    [test.unreadable? p.base,
      if (test.content p.store p.base != 0) = on then dest.unreadable? p.base else none]
  | .adjustBase offset =>
    [offset.unreadable? p.base,
      Word.unfit? (p.base.toInt + (offset.content p.store p.base).toInt)]
  | .halt => []

/-- Where an instruction leads that does not halt. -/
def successor : Instruction → Int
  | .jumpIf on test dest =>
    if (test.content p.store p.base != 0) = on then (dest.content p.store p.base).toInt
    else (p.pos + 3 : Nat)
  | i => (p.pos + i.width : Nat)

/-- What the instruction comes to if nothing goes wrong. -/
def planned (i : Instruction) : Plan :=
  match i with
  | .binary op left right dest =>
    .act (.write (dest.place p.base).toNat
      (Int64.ofInt (op.exact (left.content p.store p.base).toInt
        (right.content p.store p.base).toInt))) (p.successor i)
  | .input dest => .request (dest.place p.base).toNat (p.successor i)
  | .output source => .act (.emit (source.content p.store p.base)) (p.successor i)
  | .jumpIf _ _ _ => .act .none (p.successor i)
  | .adjustBase offset =>
    .act (.rebase (Int64.ofInt (p.base.toInt + (offset.content p.store p.base).toInt)))
      (p.successor i)
  | .halt => .halt

theorem planFor_eq (i : Instruction) : p.planFor i = guarded (p.hazardsOf i) (p.planned i) := by
  -- Each line of the program that can fail is one hazard in front of those of the lines after it.
  cases i with
  | binary op left right dest =>
    rw [planFor, left.value_eq, right.value_eq]
    refine guarded_bind (guarded_bind ?_)
    rw [op.exact_eq, dest.target_eq]
    exact guarded_bind (guarded_bind rfl)
  | input dest =>
    rw [planFor, dest.target_eq]
    exact guarded_bind rfl
  | output source =>
    rw [planFor, source.value_eq]
    exact guarded_bind rfl
  | jumpIf on test dest =>
    rw [planFor, test.value_eq]
    refine guarded_bind ?_
    by_cases ht : (test.content p.store p.base != 0) = on
    · simp only [planned, successor, if_pos ht, dest.value_eq]
      exact guarded_bind rfl
    · simp only [planned, successor, if_neg ht]
      rfl
  | adjustBase offset =>
    rw [planFor, offset.value_eq]
    refine guarded_bind ?_
    rw [Word.exact_eq]
    exact guarded_bind rfl
  | halt => rfl

end Processor

namespace Machine

variable {π : Type} [Producer π]

/-- Why there is no word to be had, the queue being empty. -/
def refusal? (m : Machine π) : Option Failure :=
  match m.inputs, m.producer with
  | _ :: _, _ => none
  | [], some s => failure? (Producer.answer s m.toProcessor).1
  | [], none => failure? m.console.ask.1

theorem refusal?_eq (m : Machine π) : m.refusal? = failure? m.takeInput.1 := by
  unfold refusal?
  split
  · rename_i hi
    rw [takeInput_of_queued hi]
    rfl
  · rename_i hi hs
    rw [takeInput_of_producer hi hs]
  · rename_i hi hs
    rw [takeInput_of_console hi hs]

/-- What can go wrong with the instruction once it is known what it does. -/
def lateHazards (m : Machine π) (i : Instruction) : List (Option Failure) :=
  match i with
  | .halt => []
  | .input _ => [m.refusal?, m.store.outside? (m.successor i)]
  | i => [m.store.outside? (m.successor i)]

/-- All that can go wrong in the next step, in the order in which it is noticed. -/
def hazards (m : Machine π) : List (Option Failure) :=
  m.store.outside? m.pos :: failure? (Instruction.decode m.store m.pos) ::
    match Instruction.decode m.store m.pos with
    | .ok i => m.hazardsOf i ++ m.lateHazards i
    | .error _ => []

section
variable {m : Machine π} {i : Instruction}

omit [Producer π] in
theorem outside?_of_lt (hp : m.pos < m.store.size) : m.store.outside? m.pos = none :=
  if_pos ⟨Int.natCast_nonneg _, Int.ofNat_lt.mpr hp⟩

omit [Producer π] in
theorem outside?_of_not_lt (hp : ¬m.pos < m.store.size) :
    m.store.outside? m.pos = some (.outOfBounds m.pos) :=
  if_neg fun h ↦ hp (Int.ofNat_lt.mp h.2)

theorem hazards_of_decode (hd : Instruction.decode m.store m.pos = .ok i) :
    m.hazards.findSome? id = (m.hazardsOf i ++ m.lateHazards i).findSome? id := by
  rw [hazards, hd, outside?_of_lt (Processor.pos_lt_of_decode hd)]
  rfl

omit [Producer π] in
theorem plan_of_decode (hd : Instruction.decode m.store m.pos = .ok i) : m.plan =
    (guarded (m.hazardsOf i) (m.planned i)).mapError (Failure.locate · m.pos) := by
  rw [Processor.plan, if_pos (Processor.pos_lt_of_decode hd), hd, ← Processor.planFor_eq]
  rfl

/-- An instruction that has made its change fails only if it leads out of the image. -/
theorem step_of_acts_eq {m' : Machine π} {next : Int} (h : m.status = .running)
    (ha : Acts m m' next) : m.step.1 =
      (guarded [m.store.outside? next] true).mapError (Failure.locate · m.pos) := by
  obtain ⟨hs, hpos⟩ := ha.frame
  rw [step_of_acts h ha, arrive, Store.outside?, hs, hpos]
  split <;> rfl

theorem step_of_planned (h : m.status = .running) (hp : m.plan = .ok (m.planned i)) :
    ∃ alive, m.step.1 = (guarded (m.lateHazards i) alive).mapError (Failure.locate · m.pos) := by
  cases i with
  | halt => exact ⟨false, by rw [step_eq_iff.mpr (.halt h hp)]; rfl⟩
  | binary | output | jumpIf | adjustBase => exact ⟨true, step_of_acts_eq h (.act hp)⟩
  | input dest =>
    refine ⟨true, ?_⟩
    rw [lateHazards, refusal?_eq]
    rcases ht : m.takeInput with ⟨e | v, n⟩
    · rw [step_eq_iff.mpr (.refused h hp ht), (takeInput_frame ht).2]
      rfl
    · exact step_of_acts_eq h (.read hp ht)

theorem step_eq_guarded (h : m.status = .running) :
    ∃ alive, m.step.1 = (guarded m.hazards alive).mapError (Failure.locate · m.pos) := by
  have hstuck {e : Failure} (hf : m.hazards.findSome? id = some e)
      (hp : m.plan = .error (e.locate m.pos)) :
      ∃ alive, m.step.1 = (guarded m.hazards alive).mapError (Failure.locate · m.pos) :=
    ⟨true, by rw [step_eq_iff.mpr (.stuck h hp), guarded_of_some hf]; rfl⟩
  cases hd : Instruction.decode m.store m.pos with
  | error e =>
    by_cases hpos : m.pos < m.store.size
    · refine hstuck (e := e) ?_ ?_
      · rw [hazards, hd, outside?_of_lt hpos]
        rfl
      · rw [Processor.plan, if_pos hpos, hd]
        rfl
    · refine hstuck (e := .outOfBounds m.pos) ?_ ?_
      · rw [hazards, outside?_of_not_lt hpos]
        rfl
      · rw [Processor.plan, if_neg hpos]
        rfl
  | ok i =>
    have hf := hazards_of_decode hd
    have hp := plan_of_decode hd
    rw [List.findSome?_append] at hf
    cases hi : (m.hazardsOf i).findSome? id with
    | some e =>
      rw [hi] at hf
      rw [guarded_of_some hi] at hp
      exact hstuck hf hp
    | none =>
      rw [hi] at hf
      rw [guarded_of_none hi] at hp
      obtain ⟨alive, hs⟩ := step_of_planned h hp
      refine ⟨alive, hs.trans ?_⟩
      rw [guarded, guarded, hf]
      rfl

theorem kind_of_refusal? {e : Failure} (he : m.refusal? = some e) : m.inputs = [] ∧
    ((∃ s, m.producer = some s ∧ (Producer.answer s m.toProcessor).1 = .error e) ∨
      m.producer = none ∧ e.kind = .input) := by
  unfold refusal? at he
  split at he
  · cases he
  · rename_i s hi hs
    exact ⟨hi, .inl ⟨s, hs, failure?_eq_some_iff.mp he⟩⟩
  · rename_i hi hs
    exact ⟨hi, .inr ⟨hs, m.console.ask_fails e (failure?_eq_some_iff.mp he)⟩⟩

/-- A step fails if something can go wrong, and what is reported is the first that does. -/
theorem step_error_iff (h : m.status = .running) :
    (∀ e, m.step.1 = .error e ↔ ∃ f, m.hazards.findSome? id = some f ∧ e = f.locate m.pos) ∧
    ((∃ e, m.step.1 = .error e) ↔ ∃ f, some f ∈ m.hazards) ∧
    (∀ e, Instruction.decode m.store m.pos = .error e →
      e.kind = .decode ∧ e.address = some m.pos) ∧
    (∀ o : Operand, failure? (o.value m.store m.base) = o.unreadable? m.base ∧
      (o.unreadable? m.base).map Failure.kind =
        if o.mode ≠ .immediate ∧ o.Misplaced m.base then some .address else none) ∧
    (∀ o : Operand, failure? (o.target m.base) = o.unwritable? m.base ∧
      (o.unwritable? m.base).map Failure.kind =
        if o.mode = .immediate then some .writeTarget
        else if o.Misplaced m.base then some .address else none) ∧
    ∀ e, m.refusal? = some e → m.inputs = [] ∧
      ((∃ s, m.producer = some s ∧ (Producer.answer s m.toProcessor).1 = .error e) ∨
        m.producer = none ∧ e.kind = .input) := by
  have hfirst (e : Failure) :
      m.step.1 = .error e ↔ ∃ f, m.hazards.findSome? id = some f ∧ e = f.locate m.pos := by
    obtain ⟨alive, hs⟩ := step_eq_guarded h
    rw [hs, mapError_guarded_eq_error_iff]
  refine ⟨hfirst, ?_, Instruction.decode_fails m.store m.pos, fun o ↦ o.value_fails m.store m.base,
    fun o ↦ o.target_fails m.base, fun e ↦ kind_of_refusal?⟩
  simp only [hfirst]
  constructor
  · rintro ⟨e, f, hf, -⟩
    obtain ⟨a, ha, rfl⟩ := List.exists_of_findSome?_eq_some hf
    exact ⟨f, ha⟩
  · rintro ⟨f, hf⟩
    have hsome : (m.hazards.findSome? id).isSome := List.findSome?_isSome_iff.mpr ⟨_, hf, rfl⟩
    obtain ⟨g, hg⟩ := Option.isSome_iff_exists.mp hsome
    exact ⟨_, g, hg, rfl⟩

end

/-- An addition of a cell that there is not, to be written to an operand that is none, at the end of
the image. -/
def cluttered : Machine Empty := load [11001, -1, 1, 0]

theorem step_error_iff_of_cluttered : cluttered.status = .running ∧
    cluttered.hazards = [none, none, some (.negativeAddress (-1)), none, none,
      some (.immediateTarget 0), some (.outOfBounds 4)] ∧
    cluttered.step.1 = .error ((Failure.negativeAddress (-1)).locate 0) :=
  ⟨rfl, rfl, ((step_error_iff rfl).1 _).mpr ⟨_, rfl, rfl⟩⟩

end Machine

end Intcode
