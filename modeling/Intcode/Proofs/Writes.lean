import Intcode.Proofs.Images

namespace Intcode.Store

variable {s t : Store} {a b : Nat} {v w : Word}

theorem getElem?_beyond : s.beyond[a]? = if a ∈ s.beyond then some (s.get a) else none := by
  by_cases h : a ∈ s.beyond
  · have hs := Nat.not_lt.mpr (s.size_le_of_mem a h)
    rw [if_pos h, get, dif_neg hs]
    exact Std.ExtTreeMap.getElem?_eq_some_getD h
  · rw [if_neg h]
    exact Std.ExtTreeMap.getElem?_eq_none h

theorem getElem?_image (h : a < s.image.size) : s.image[a]? = some (s.get a) := by
  rw [get, dif_pos h]
  exact Array.getElem?_eq_getElem h

/-- Two stores are the same if they read the same and keep the same cells past their images. -/
theorem eq_iff : s = t ↔
    s.size = t.size ∧ (∀ a, s.get a = t.get a) ∧ ∀ a, a ∈ s.beyond ↔ a ∈ t.beyond := by
  constructor
  · rintro rfl
    exact ⟨rfl, fun _ ↦ rfl, fun _ ↦ Iff.rfl⟩
  · intro h
    obtain ⟨hsize, hget, hmem⟩ := h
    have himage : s.image = t.image := by
      refine Array.ext_getElem? fun a ↦ ?_
      by_cases ha : a < s.size
      · have ht : a < t.size := hsize ▸ ha
        rw [getElem?_image ha, getElem?_image ht, hget]
      · have hs := Nat.le_of_not_lt ha
        have ht : t.size ≤ a := hsize ▸ hs
        rw [Array.getElem?_eq_none hs, Array.getElem?_eq_none ht]
    have hbeyond : s.beyond = t.beyond := by
      refine Std.ExtTreeMap.ext_getElem? fun a ↦ ?_
      rw [getElem?_beyond, getElem?_beyond, hget]
      exact if_congr (hmem a) rfl rfl
    cases s
    cases t
    cases himage
    cases hbeyond
    rfl

theorem mem_set : b ∈ (s.set a v).beyond ↔ b ∈ s.beyond ∨ a = b ∧ s.size ≤ a := by
  unfold set
  split
  · rename_i h
    have hs : ¬s.size ≤ a := Nat.not_le.mpr h
    simp [hs]
  · rename_i h
    have hs : s.size ≤ a := Nat.le_of_not_lt h
    simp [hs, or_comm, Std.ExtTreeMap.mem_insert]

theorem set_comm (h : a ≠ b) : (s.set a v).set b w = (s.set b w).set a v := by
  refine eq_iff.mpr ⟨by simp, fun c ↦ ?_, fun c ↦ ?_⟩
  · simp only [get_set]
    split
    · rename_i hb
      subst hb
      rw [if_neg h]
    · rfl
  · simp only [mem_set, size_set]
    exact or_right_comm

/-- A change of one cell, which may be given by the word that denotes it. -/
inductive Edit
  | set (address : Nat) (value : Word)
  | write (address value : Word)
deriving DecidableEq, Repr

namespace Edit

/-- The cell that is changed, if there is one. -/
def address? : Edit → Option Nat
  | .set a _ => some a
  | .write w _ => if 0 ≤ w.toInt then some w.toInt.toNat else none

def value : Edit → Word
  | .set _ v => v
  | .write _ v => v

def perform (s : Store) : Edit → Except Failure Unit × Store
  | .set a v => (.ok (), s.set a v)
  | .write w v =>
    match s.write w v with
    | .ok t => (.ok (), t)
    | .error e => (.error e, s)

variable {e : Edit}

theorem perform_of_some (h : e.address? = some a) : e.perform s = (.ok (), s.set a e.value) := by
  cases e with
  | set => cases h; rfl
  | write w v =>
    rw [address?] at h
    split at h
    · rename_i hw
      cases h
      rw [perform, Store.write, address, if_pos hw]
      rfl
    · cases h

theorem perform_write_of_neg (h : w.toInt < 0) :
    (write w v).perform s = (.error (.negativeAddress w), s) := by
  rw [perform, Store.write, address, if_neg (Int.not_le.mpr h)]
  rfl

theorem exists_of_none (h : e.address? = none) : ∃ w v, e = .write w v ∧ w.toInt < 0 := by
  cases e with
  | set => cases h
  | write w v =>
    rw [address?] at h
    split at h
    · cases h
    · rename_i hw
      exact ⟨w, v, rfl, Int.not_le.mp hw⟩

theorem perform_of_none (h : e.address? = none) :
    (e.perform s).2 = s ∧ (e.perform s).1 ≠ .ok () := by
  obtain ⟨w, v, rfl, hw⟩ := exists_of_none h
  rw [perform_write_of_neg hw]
  exact ⟨rfl, nofun⟩

theorem perform_ok_iff : (e.perform s).1 = .ok () ↔ ∃ a, e.address? = some a := by
  cases h : e.address? with
  | none => simp [perform_of_none h]
  | some a => simp [perform_of_some h]

end Edit

/-- The store after the edits, of which some may have failed. -/
def edited (s : Store) (es : List Edit) : Store := es.foldl (fun s e ↦ (e.perform s).2) s

/-- The value that was last given to the cell. -/
def last? (es : List Edit) (a : Nat) : Option Word :=
  (es.filter (·.address? = some a)).getLast?.map Edit.value

def Changes (es : List Edit) (a : Nat) : Prop := ∃ e ∈ es, e.address? = some a

section
variable {e : Edit} {es : List Edit}

theorem edited_cons : s.edited (e :: es) = (e.perform s).2.edited es := rfl

theorem last?_cons_of_ne (h : e.address? ≠ some a) : last? (e :: es) a = last? es a := by
  rw [last?, List.filter_cons_of_neg (by simpa using h), last?]

theorem last?_cons_of_eq (h : e.address? = some a) :
    last? (e :: es) a = some ((last? es a).getD e.value) := by
  rw [last?, List.filter_cons_of_pos (by simpa using h), List.getLast?_cons, last?]
  cases (es.filter (·.address? = some a)).getLast? <;> rfl

theorem changes_cons : Changes (e :: es) a ↔ e.address? = some a ∨ Changes es a := by
  simp [Changes]

theorem get_perform : (e.perform s).2.get a = if e.address? = some a then e.value else s.get a := by
  cases h : e.address? with
  | none => rw [(Edit.perform_of_none h).1]; rfl
  | some b => simp only [Edit.perform_of_some h, get_set, Option.some.injEq]

theorem size_perform : (e.perform s).2.size = s.size := by
  cases h : e.address? with
  | none => rw [(Edit.perform_of_none h).1]
  | some b => rw [Edit.perform_of_some h, size_set]

theorem mem_perform :
    a ∈ (e.perform s).2.beyond ↔ a ∈ s.beyond ∨ s.size ≤ a ∧ e.address? = some a := by
  cases h : e.address? with
  | none => simp [(Edit.perform_of_none h).1]
  | some b =>
    rw [Edit.perform_of_some h, mem_set, Option.some.injEq]
    constructor
    · rintro (hm | ⟨rfl, hs⟩)
      · exact .inl hm
      · exact .inr ⟨hs, rfl⟩
    · rintro (hm | ⟨hs, rfl⟩)
      · exact .inl hm
      · exact .inr ⟨rfl, hs⟩

theorem size_edited : (s.edited es).size = s.size := by
  induction es generalizing s with
  | nil => rfl
  | cons e es ih => rw [edited_cons, ih, size_perform]

theorem get_edited : (s.edited es).get a = (last? es a).getD (s.get a) := by
  induction es generalizing s with
  | nil => rfl
  | cons e es ih =>
    rw [edited_cons, ih, get_perform]
    by_cases h : e.address? = some a
    · rw [if_pos h, last?_cons_of_eq h, Option.getD_some]
    · rw [if_neg h, last?_cons_of_ne h]

theorem mem_edited : a ∈ (s.edited es).beyond ↔ a ∈ s.beyond ∨ s.size ≤ a ∧ Changes es a := by
  induction es generalizing s with
  | nil => simp [edited, Changes]
  | cons e es ih =>
    rw [edited_cons, ih, mem_perform, size_perform, changes_cons, or_assoc, ← and_or_left]

/-- Edits of different cells can be made in either order, also when one of them fails. -/
theorem edited_comm {f : Edit} (h : ∀ a, e.address? = some a → f.address? ≠ some a) :
    s.edited [e, f] = s.edited [f, e] := by
  change (f.perform (e.perform s).2).2 = (e.perform (f.perform s).2).2
  cases he : e.address? with
  | none => rw [(Edit.perform_of_none he).1, (Edit.perform_of_none he).1]
  | some a =>
    cases hf : f.address? with
    | none => rw [(Edit.perform_of_none hf).1, (Edit.perform_of_none hf).1]
    | some b =>
      have hab : a ≠ b := fun hab ↦ h a he (hab ▸ hf)
      simp only [Edit.perform_of_some he, Edit.perform_of_some hf, set_comm hab]

end

/-- A store is a total function of the addresses, which holds the value that was last given to a
cell, together with the set of cells past the image that have been given one. -/
theorem edits_refine (ws : List Word) (es : List Edit) :
    let s := (ofList ws).edited es
    (∀ w v, w.toInt < 0 →
      (Edit.write w v).perform s = (.error { kind := .address, value := some w }, s)) ∧
    (∀ e : Edit, (e.perform s).1 = .ok () ↔ ∃ a, e.address? = some a) ∧
    (∀ a, s.get a = (last? es a).getD (ws.getD a 0)) ∧
    s.size = ws.length ∧
    (∀ a, a ∈ s.beyond ↔ ws.length ≤ a ∧ Changes es a) ∧
    (∀ e f : Edit, (∀ a, e.address? = some a → f.address? ≠ some a) →
      s.edited [e, f] = s.edited [f, e]) ∧
    ∀ fs, s = (ofList ws).edited fs ↔ (∀ a, s.get a = ((ofList ws).edited fs).get a) ∧
      ∀ a, ws.length ≤ a → (Changes es a ↔ Changes fs a) := by
  intro s
  have hsize (es : List Edit) : ((ofList ws).edited es).size = ws.length := by
    rw [size_edited, size_ofList]
  have hmem (es : List Edit) (a : Nat) :
      a ∈ ((ofList ws).edited es).beyond ↔ ws.length ≤ a ∧ Changes es a := by
    rw [mem_edited, size_ofList]
    exact or_iff_right Std.ExtTreeMap.not_mem_empty
  refine ⟨fun w v ↦ Edit.perform_write_of_neg, fun e ↦ Edit.perform_ok_iff, fun a ↦ ?_, hsize es,
    hmem es, fun e f ↦ edited_comm, fun fs ↦ ?_⟩
  · rw [get_edited, get_ofList]
  · simp only [s, eq_iff, hsize, hmem, and_congr_right_iff, true_and]

/-- A cell that has been given a zero reads as one that has been given nothing, and is kept. -/
theorem edits_refine_of_zeroed :
    let s := (ofList [1, 2]).edited [.write 5 7, .write (-1) 3, .set 5 0]
    (∀ a, s.get a = (ofList [1, 2]).get a) ∧ s ≠ ofList [1, 2] ∧
      (Edit.write (-1) 4).perform s = (.error { kind := .address, value := some (-1) }, s) := by
  intro s
  obtain ⟨hneg, -, hget, -, -, -, heq⟩ :=
    edits_refine [1, 2] [.write 5 7, .write (-1) 3, .set 5 0]
  refine ⟨fun a ↦ ?_, fun h ↦ ?_, hneg (-1) 4 (by decide)⟩
  · rw [hget, get_ofList]
    by_cases ha : a = 5
    · subst ha
      rfl
    · have hfive : some 5 ≠ some a := fun h ↦ ha (Option.some.inj h).symm
      rw [last?_cons_of_ne (e := .write 5 7) hfive, last?_cons_of_ne (e := .write (-1) 3) nofun,
        last?_cons_of_ne (e := .set 5 0) hfive]
      rfl
  · obtain ⟨e, he, -⟩ := (((heq []).mp h).2 5 (by decide)).mp ⟨.set 5 0, by simp, rfl⟩
    cases he

end Intcode.Store
