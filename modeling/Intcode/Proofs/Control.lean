import Intcode.Proofs.Step

namespace Intcode

/-- What is found with some fuel is found with any more of it. -/
def Lasting {α : Type} (f : Nat → Option α) : Prop :=
  ∀ a r, f a = some r → ∀ k, f (a + k) = some r

namespace Lasting

variable {α β : Type} {f : Nat → Option α} {a b : Nat} {r s : α}

theorem unique (h : Lasting f) (hr : f a = some r) (hs : f b = some s) : r = s := by
  have h₁ := h a r hr b
  have h₂ := h b s hs a
  rw [Nat.add_comm b a] at h₂
  exact Option.some.inj (h₁.symm.trans h₂)

theorem lt_of_none (h : Lasting f) (hr : f a = some r) (hb : f b = none) : b < a := by
  refine Nat.lt_of_not_le fun hle ↦ ?_
  have hs := h a r hr (b - a)
  rw [Nat.add_sub_cancel' hle, hb] at hs
  cases hs

theorem map (h : Lasting f) (g : α → β) : Lasting fun k ↦ (f k).map g := by
  intro a r hr k
  obtain ⟨s, hs, rfl⟩ := Option.map_eq_some_iff.mp hr
  exact Option.map_eq_some_iff.mpr ⟨s, h a s hs k, rfl⟩

end Lasting

namespace Machine

variable {π : Type} [Producer π]

theorem nextOutput?_add {fuel : Nat} {m : Machine π}
    {r : Except Failure (Option Word) × Machine π} (h : m.nextOutput? fuel = some r) (k : Nat) :
    m.nextOutput? (fuel + k) = some r := by
  fun_induction nextOutput? fuel m with
  | case1 fuel m answer m' hp => rw [nextOutput?_of_pending hp]; exact h
  | case2 m hp => cases h
  | case3 m hp fuel e m' hs => rw [Nat.succ_add, nextOutput?_of_error hp hs]; exact h
  | case4 m hp fuel m' hs => rw [Nat.succ_add, nextOutput?_of_halt hp hs]; exact h
  | case5 m hp fuel m' hs ih => rw [Nat.succ_add, nextOutput?_of_alive hp hs]; exact ih h

theorem nextOutput?_lasting (m : Machine π) : Lasting (m.nextOutput? ·) :=
  fun _ _ h k ↦ nextOutput?_add h k

theorem nextOutput?_unique {a b : Nat} {m : Machine π}
    {r s : Except Failure (Option Word) × Machine π} (hr : m.nextOutput? a = some r)
    (hs : m.nextOutput? b = some s) : r = s := m.nextOutput?_lasting.unique hr hs

theorem run?_add {fuel : Nat} {m : Machine π} {r : Except Failure (List Word) × Machine π}
    (h : m.run? fuel = some r) (k : Nat) : m.run? (fuel + k) = some r := by
  fun_induction run? fuel m with
  | case1 => cases h
  | case2 m fuel e m' hs => rw [Nat.succ_add, run?_of_error hs]; exact h
  | case3 m fuel m' hs => rw [Nat.succ_add, run?_of_halt hs]; exact h
  | case4 m fuel m' hs ih => rw [Nat.succ_add, run?_of_alive hs]; exact ih h

theorem run?_lasting (m : Machine π) : Lasting (m.run? ·) := fun _ _ h k ↦ run?_add h k

theorem run?_unique {a b : Nat} {m : Machine π} {r s : Except Failure (List Word) × Machine π}
    (hr : m.run? a = some r) (hs : m.run? b = some s) : r = s := m.run?_lasting.unique hr hs

end Machine

end Intcode
