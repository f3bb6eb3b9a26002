import Intcode.Failure
import Std.Data.ExtTreeMap

namespace Intcode

/-- The cells of a machine. The loaded image is kept as an array, and a cell past its end is kept
once it has been written. -/
structure Store where
  image : Array Word := #[]
  beyond : Std.ExtTreeMap Nat Word := ∅
  size_le_of_mem : ∀ a ∈ beyond, image.size ≤ a := by simp
deriving DecidableEq

namespace Store

def ofList (ws : List Word) : Store := { image := ws.toArray }

/-- The length of the image, which writing never changes. -/
def size (s : Store) : Nat := s.image.size

def get (s : Store) (a : Nat) : Word :=
  if h : a < s.image.size then s.image[a] else s.beyond.getD a 0

def set (s : Store) (a : Nat) (v : Word) : Store :=
  if h : a < s.image.size then
    { s with
      image := s.image.set a v
      size_le_of_mem := by simpa using s.size_le_of_mem }
  else
    { s with
      beyond := s.beyond.insert a v
      size_le_of_mem := by
        intro b hb
        have := s.size_le_of_mem b
        grind }

@[simp] theorem size_set (s : Store) (a : Nat) (v : Word) : (s.set a v).size = s.size := by
  unfold set size
  split <;> simp

theorem get_set (s : Store) (a b : Nat) (v : Word) :
    (s.set a v).get b = if a = b then v else s.get b := by
  have := s.size_le_of_mem
  unfold get set
  split <;> grind

/-- `v` has been stored at `a`: it is read there now, and every other cell reads as before. -/
structure Stored (s : Store) (a : Nat) (v : Word) (t : Store) : Prop where
  eq_set : t = s.set a v
  get_self : t.get a = v
  get_of_ne : ∀ b, b ≠ a → t.get b = s.get b

theorem stored_set (s : Store) (a : Nat) (v : Word) : s.Stored a v (s.set a v) where
  eq_set := rfl
  get_self := by rw [get_set, if_pos rfl]
  get_of_ne b hb := by rw [get_set, if_neg fun h ↦ hb h.symm]

/-- The address that a word denotes. -/
def address (w : Word) : Except Failure Nat :=
  if 0 ≤ w.toInt then .ok w.toInt.toNat else .error (.negativeAddress w)

def read (s : Store) (w : Word) : Except Failure Word := (address w).map s.get

def write (s : Store) (w : Word) (v : Word) : Except Failure Store :=
  (address w).map fun a ↦ s.set a v

/-- The image, and after it the written cells past its end in order of address. -/
def dump (s : Store) : String :=
  Word.listText s.image.toList ++
    if s.beyond.isEmpty then ""
    else " + " ++ Text.bracketed (s.beyond.toList.map fun c ↦
      "(" ++ Numeral.text c.1 ++ ", " ++ c.2.text ++ ")")

end Store

end Intcode
