import Intcode.Proofs.Decode
import Intcode.Proofs.Numeral
import Intcode.Proofs.Unbounded

namespace Intcode

def Failure.IsOverflow (e : Failure) : Prop :=
  e.kind = .overflow ∨ e.kind = .address ∧ e.note = "ADDRESS OVERFLOW"

/-- A computation with words against one with integers, where `formed` has the numbers that the
latter works out: it has the related result if all of them fit, and fails if there is no result or
a number does not fit. -/
inductive Matches {α β : Type} (R : α → β → Prop) (formed : List Int) :
    Except Failure α → Option β → Prop
  | ok {a : α} {b : β} (hr : R a b) (hf : ∀ z ∈ formed, Word.Fits z) :
      Matches R formed (.ok a) (some b)
  | stuck {e : Failure} : Matches R formed (.error e) none
  | overflow {e : Failure} {y : Option β} (hf : ∃ z ∈ formed, ¬Word.Fits z) (he : e.IsOverflow) :
      Matches R formed (.error e) y

namespace Matches

variable {α β γ δ : Type} {R : α → β → Prop} {S : γ → δ → Prop} {us vs : List Int}
  {x : Except Failure α} {y : Option β}

theorem bind {k : α → Except Failure γ} {l : β → Option δ} (h : Matches R us x y)
    (hk : ∀ a b, y = some b → R a b → Matches S vs (k a) (l b)) :
    Matches S (us ++ vs) (x >>= k) (y >>= l) := by
  cases h with
  | stuck => exact .stuck
  | overflow hf he =>
    obtain ⟨z, hz, hn⟩ := hf
    exact .overflow ⟨z, List.mem_append_left vs hz, hn⟩ he
  | @ok a b hr hf =>
    change Matches S (us ++ vs) (k a) (l b)
    generalize hx : k a = x', hy : l b = y'
    have hm := hk a b rfl hr
    rw [hx, hy] at hm
    cases hm with
    | ok hs hg => exact .ok hs fun z hz ↦ (List.mem_append.mp hz).elim (hf z) (hg z)
    | stuck => exact .stuck
    | overflow hg he =>
      obtain ⟨z, hz, hn⟩ := hg
      exact .overflow ⟨z, List.mem_append_right us hz, hn⟩ he

theorem bind_some {k : α → Except Failure γ} {b : β} {z : Option δ} (h : Matches R us x (some b))
    (hk : ∀ a, R a b → Matches S vs (k a) z) : Matches S (us ++ vs) (x >>= k) z := by
  refine h.bind (l := fun _ ↦ z) fun a c hc hr ↦ ?_
  cases hc
  exact hk a hr

theorem locate (h : Matches R us x y) (pos : Nat) :
    Matches R us (x.mapError (Failure.locate · pos)) y := by
  cases h with
  | ok hr hf => exact .ok hr hf
  | stuck => exact .stuck
  | overflow hf he => exact .overflow hf he

end Matches

namespace Instruction

variable {p : Processor} {k : Nat} {o : Operand}

theorem Holds.raw_eq (h : Holds p.store p.pos k o) : p.unbounded.raw k = o.raw.toInt := by
  rw [h.1]
  rfl

theorem Holds.mode_eq (h : Holds p.store p.pos k o) : p.unbounded.mode k = o.mode.digit := by
  rw [← h.2, digitAt_eq]
  rfl

theorem Holds.pointer_eq (h : Holds p.store p.pos k o) : p.unbounded.pointer k =
    if o.mode = .relative then o.raw.toInt + p.base.toInt else o.raw.toInt := by
  rw [Unbounded.pointer, h.raw_eq, h.mode_eq]
  cases o.mode <;> rfl

theorem Holds.pointer_matches (h : Holds p.store p.pos k o) (hm : o.mode ≠ .immediate) :
    Matches (fun w z ↦ w.toInt = z) [p.unbounded.pointer k] (o.pointer p.base)
      (some (p.unbounded.pointer k)) := by
  rw [h.pointer_eq, Operand.pointer]
  cases hmode : o.mode with
  | immediate => exact absurd hmode hm
  | position => exact .ok rfl (by simpa using Word.fits_toInt o.raw)
  | relative =>
    simp only [↓reduceIte]
    cases hw : Word.ofInt? (o.raw.toInt + p.base.toInt) with
    | none =>
      have hn := Word.not_fits_of_ofInt?_eq_none hw
      exact .overflow ⟨_, List.mem_singleton_self _, hn⟩ (.inr ⟨rfl, rfl⟩)
    | some w =>
      have hz := Word.ofInt?_eq_some_iff.mp hw
      exact .ok hz (by simpa [hz] using Word.fits_toInt w)

theorem address_matches {w : Word} {z : Int} (h : w.toInt = z) :
    Matches (· = ·) [] (Store.address w) (if 0 ≤ z then some z.toNat else none) := by
  subst h
  rw [Store.address]
  split
  · exact .ok rfl (by simp)
  · exact .stuck

theorem Holds.target_matches (h : Holds p.store p.pos k o) :
    Matches (· = ·) [p.unbounded.pointer k] (o.target p.base) (p.unbounded.target? k) := by
  rw [Unbounded.target?, h.mode_eq]
  by_cases hm : o.mode = .immediate
  · rw [Operand.target, Operand.pointer, hm]
    exact .stuck
  have hd : (o.mode.digit : Int) ≠ 1 := by cases hmode : o.mode <;> simp_all [Mode.digit]
  simp only [hd, ne_eq, not_false_eq_true, true_and]
  rw [← List.append_nil [p.unbounded.pointer k]]
  exact (h.pointer_matches hm).bind_some fun w hw ↦ address_matches hw

theorem Holds.value_matches (h : Holds p.store p.pos k o) :
    Matches (fun w z ↦ w.toInt = z) [p.unbounded.pointer k] (o.value p.store p.base)
      (p.unbounded.read? k) := by
  rw [Unbounded.read?, h.mode_eq, Operand.value]
  by_cases hm : o.mode = .immediate
  · rw [if_pos hm, hm, h.pointer_eq, h.raw_eq, hm]
    exact .ok rfl (by simpa using Word.fits_toInt o.raw)
  have hd : (o.mode.digit : Int) ≠ 1 := by cases hmode : o.mode <;> simp_all [Mode.digit]
  rw [if_neg hm, if_neg hd, ← List.append_nil [p.unbounded.pointer k]]
  refine (h.pointer_matches hm).bind_some fun w hw ↦ ?_
  rw [← hw, Store.read, Store.address]
  split
  · exact .ok rfl (by simp)
  · exact .stuck

end Instruction

theorem Word.exact_matches (z : Int) :
    Matches (fun w z ↦ w.toInt = z) [z] (Word.exact z) (some z) := by
  rw [Word.exact]
  cases hw : Word.ofInt? z with
  | none =>
    have hn := Word.not_fits_of_ofInt?_eq_none hw
    exact .overflow ⟨z, List.mem_singleton_self z, hn⟩ (.inl rfl)
  | some w =>
    have hz := Word.ofInt?_eq_some_iff.mp hw
    exact .ok hz (by simpa [hz] using Word.fits_toInt w)

end Intcode
