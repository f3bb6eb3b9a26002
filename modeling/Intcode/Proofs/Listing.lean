import Intcode.Proofs.Legibility
import Intcode.Proofs.Reassembly
import Mathlib.Data.List.Forall2

namespace Intcode

open Text

namespace Operand

/-- The numeral of an operand in relative mode, which always has a sign. -/
def offsetText (w : Word) : List Char :=
  if w < 0 then Numeral.ofInt w.toInt else '+' :: Numeral.ofInt w.toInt

theorem value?_offsetText (w : Word) : Numeral.value? (offsetText w) = some w.toInt := by
  unfold offsetText
  split
  · exact Numeral.value?_ofInt w.toInt
  · rename_i h
    have h₀ : 0 ≤ w.toInt := Int.not_lt.mp fun hn ↦ h (Int64.lt_iff_toInt_lt.mpr hn)
    obtain ⟨n, hn⟩ := Int.eq_ofNat_of_zero_le h₀
    have hread : Numeral.natValue? (Numeral.ofInt n) = some n := Numeral.natValue?_ofNat n
    rw [hn, Numeral.value?, hread]
    rfl

theorem offsetText_injective : Function.Injective offsetText := by
  intro v w h
  have hv := value?_offsetText v
  rw [h, value?_offsetText] at hv
  exact (Int64.toInt_inj.mp (Option.some.inj hv)).symm

section
variable (w : Word)

theorem toList_text_position :
    (text ⟨w, .position⟩).toList = '[' :: (Numeral.ofInt w.toInt ++ [']']) := by
  simp [text, Word.toList_text]

theorem toList_text_immediate : (text ⟨w, .immediate⟩).toList = '#' :: Numeral.ofInt w.toInt := by
  simp [text, Word.toList_text]

theorem toList_text_relative :
    (text ⟨w, .relative⟩).toList = '[' :: ("base".toList ++ offsetText w ++ [']']) := by
  unfold text offsetText
  dsimp only
  split <;> simp [Word.toList_text]

end

/-- No numeral begins with a letter, so that a cell counted from the base is never taken for one
that is not. -/
theorem ofInt_ne_base (z : Int) (rest : List Char) : Numeral.ofInt z ≠ "base".toList ++ rest := by
  intro h
  have hb : 'b' ∈ Numeral.ofInt z := by simp [h]
  exact Numeral.not_mem_ofInt (by decide) (by decide) z hb

theorem text_injective : Function.Injective text := by
  rintro ⟨v, mode⟩ ⟨w, mode'⟩ h
  have h := congrArg String.toList h
  cases mode <;> cases mode' <;>
    simp only [toList_text_position, toList_text_immediate, toList_text_relative,
      List.cons.injEq, List.append_cancel_right_eq, List.append_cancel_left_eq, true_and] at h
  case position.position => rw [Int64.toInt_inj.mp (Numeral.ofInt_injective h)]
  case immediate.immediate => rw [Int64.toInt_inj.mp (Numeral.ofInt_injective h)]
  case relative.relative => rw [offsetText_injective h]
  case position.relative => exact absurd h (ofInt_ne_base v.toInt _)
  case relative.position => exact absurd h.symm (ofInt_ne_base w.toInt _)
  all_goals exact absurd h.1 (by decide)

theorem not_mem_text {c : Char} (hc : c ∉ "[base+-]#".toList) (hd : ¬c.isDigit) (o : Operand) :
    c ∉ o.text.toList := by
  obtain ⟨w, mode⟩ := o
  have hw : c ∉ Numeral.ofInt w.toInt :=
    Numeral.not_mem_ofInt hd (fun h ↦ hc (by simp [h])) w.toInt
  have hoffset : c ∉ offsetText w := by
    unfold offsetText
    split
    · exact hw
    · exact List.not_mem_cons_of_ne_of_not_mem (fun h ↦ hc (by simp [h])) hw
  cases mode <;>
    simp_all [toList_text_position, toList_text_immediate, toList_text_relative]

theorem toList_text_ne_nil (o : Operand) : o.text.toList ≠ [] := by
  obtain ⟨w, mode⟩ := o
  cases mode <;>
    simp [toList_text_position, toList_text_immediate, toList_text_relative]

theorem legible_text :
    Legible [',', ' '] (fun o : Operand ↦ o.text.toList) (fun o ↦ o.text.toList) :=
  legible_of_injective (not_mem_text (by decide) (by decide)) text_injective

end Operand

namespace Opcode

theorem mnemonic_injective : Function.Injective mnemonic := by
  intro c d h
  rcases c with (_ | _ | _ | _) | _ | _ | (_ | _) | _ | _ <;>
    rcases d with (_ | _ | _ | _) | _ | _ | (_ | _) | _ | _ <;>
    first | rfl | exact absurd h (by decide)

theorem mnemonic_ne_data (c : Opcode) : c.mnemonic ≠ "DATA" := by
  rcases c with (_ | _ | _ | _) | _ | _ | (_ | _) | _ | _ <;> decide

theorem not_mem_mnemonic {m : Char} (hm : ¬m.isUpper) (c : Opcode) : m ∉ c.mnemonic.toList := by
  have hall : c.mnemonic.toList.all Char.isUpper := by
    rcases c with (_ | _ | _ | _) | _ | _ | (_ | _) | _ | _ <;> decide
  exact fun h ↦ hm (List.all_eq_true.mp hall m h)

end Opcode

namespace Instruction

variable {i j : Instruction}

theorem ext_operands (hc : i.opcode = j.opcode) (ho : i.operands = j.operands) : i = j := by
  cases i <;> cases j <;> simp_all [opcode, operands]

/-- What is written after the mnemonic. -/
def operandsText (os : List Operand) : List Char :=
  if os = [] then [] else ' ' :: [',', ' '].intercalate (os.map fun o ↦ o.text.toList)

theorem follows_operandsText (os : List Operand) : Follows [' '] (operandsText os) := by
  unfold operandsText
  split
  · exact .inl rfl
  · exact .inr ⟨_, rfl⟩

theorem operandsText_injective : Function.Injective operandsText := by
  intro os os' h
  unfold operandsText at h
  split at h <;> split at h
  · simp_all
  · cases h
  · cases h
  · exact eq_of_intercalate Operand.legible_text Operand.toList_text_ne_nil
      Operand.toList_text_ne_nil (List.tail_eq_of_cons_eq h)

theorem toList_text (i : Instruction) :
    i.text.toList = i.opcode.mnemonic.toList ++ operandsText i.operands := by
  unfold text operandsText
  split
  · rw [List.append_nil]
  · simp [toList_commaSeparated, Function.comp_def]

/-- No two instructions are written in the same way. -/
theorem eq_of_text (h : i.text = j.text) : i = j := by
  have h := congrArg String.toList h
  rw [toList_text, toList_text] at h
  obtain ⟨hm, ho⟩ := append_inj_of_follows (i.opcode.not_mem_mnemonic (by decide))
    (j.opcode.not_mem_mnemonic (by decide)) (follows_operandsText _) (follows_operandsText _) h
  exact ext_operands (Opcode.mnemonic_injective (String.toList_inj.mp hm))
    (operandsText_injective ho)

end Instruction

namespace Line

/-- The word that a line begins with after its address. -/
def keyword : Line → String
  | .code _ i => i.opcode.mnemonic
  | .data _ _ => "DATA"

def rest : Line → List Char
  | .code _ i => Instruction.operandsText i.operands
  | .data _ w => ' ' :: w.text.toList

theorem toList_body (l : Line) : l.body.toList = l.keyword.toList ++ l.rest := by
  cases l with
  | code a i => exact i.toList_text
  | data a w => simp [body, keyword, rest]

theorem follows_rest (l : Line) : Follows [' '] l.rest := by
  cases l with
  | code a i => exact Instruction.follows_operandsText i.operands
  | data a w => exact .inr ⟨_, rfl⟩

theorem not_mem_keyword {c : Char} (hc : ¬c.isUpper) (l : Line) : c ∉ l.keyword.toList := by
  cases l with
  | code a i => exact i.opcode.not_mem_mnemonic hc
  | data a w =>
    have hall : "DATA".toList.all Char.isUpper := by decide
    exact fun h ↦ hc (List.all_eq_true.mp hall c h)

/-- A line tells what it stands for, be it an instruction or a word of data. -/
theorem eq_of_body {l l' : Line} (ha : l.address = l'.address) (hb : l.body = l'.body) :
    l = l' := by
  have hkey : l.keyword = l'.keyword ∧ l.rest = l'.rest := by
    have h := congrArg String.toList hb
    rw [toList_body, toList_body] at h
    obtain ⟨hk, hr⟩ := append_inj_of_follows (l.not_mem_keyword (by decide))
      (l'.not_mem_keyword (by decide)) l.follows_rest l'.follows_rest h
    exact ⟨String.toList_inj.mp hk, hr⟩
  cases l with
  | code a i =>
    cases l' with
    | code a' j =>
      cases ha
      rw [Instruction.eq_of_text hb]
    | data a' w => exact absurd hkey.1 i.opcode.mnemonic_ne_data
  | data a v =>
    cases l' with
    | code a' j => exact absurd hkey.1.symm j.opcode.mnemonic_ne_data
    | data a' w =>
      cases ha
      rw [Word.text_injective (String.toList_inj.mp (List.tail_eq_of_cons_eq hkey.2))]

theorem newline_not_mem_body (l : Line) : '\n' ∉ l.body.toList := by
  rw [toList_body, List.mem_append, not_or]
  refine ⟨l.not_mem_keyword (by decide), ?_⟩
  cases l with
  | code a i =>
    rw [rest, Instruction.operandsText]
    split
    · exact List.not_mem_nil
    · exact List.not_mem_cons_of_ne_of_not_mem (by decide)
        (not_mem_intercalate (by decide) (Operand.not_mem_text (by decide) (by decide)) _)
  | data a w =>
    exact List.not_mem_cons_of_ne_of_not_mem (by decide) (w.not_mem_text (by decide) (by decide))

/-- The address, moved to the right end of its column. -/
def label (column : Nat) (l : Line) : List Char :=
  List.replicate (column - (Numeral.ofNat l.address).length) ' ' ++ Numeral.ofNat l.address

/-- The line without the newline that ends it. -/
def row (column : Nat) (l : Line) : List Char := l.label column ++ ':' :: ' ' :: l.body.toList

section
variable {column column' : Nat} {l l' : Line}

theorem toList_text (column : Nat) (l : Line) :
    (l.text column).toList = l.row column ++ ['\n'] := by
  simp [text, row, label, Text.alignRight, Numeral.text]

theorem not_mem_label {c : Char} (hc : c ≠ ' ') (hd : ¬c.isDigit) (column : Nat) (l : Line) :
    c ∉ l.label column := by
  rw [label, List.mem_append, not_or]
  exact ⟨fun h ↦ hc (List.eq_of_mem_replicate h), Numeral.not_mem_ofNat hd l.address⟩

theorem newline_not_mem_row (column : Nat) (l : Line) : '\n' ∉ l.row column := by
  rw [row, List.mem_append, not_or]
  refine ⟨l.not_mem_label (by decide) (by decide) column, ?_⟩
  exact List.not_mem_cons_of_ne_of_not_mem (by decide)
    (List.not_mem_cons_of_ne_of_not_mem (by decide) l.newline_not_mem_body)

theorem dropWhile_label (column : Nat) (l : Line) :
    (l.label column).dropWhile (· = ' ') = Numeral.ofNat l.address := by
  obtain ⟨c, cs, he⟩ := List.exists_cons_of_ne_nil (Numeral.ofNat_ne_nil l.address)
  have hc : ' ' ∉ Numeral.ofNat l.address := Numeral.not_mem_ofNat (by decide) l.address
  rw [label, List.dropWhile_append_of_pos (by simp), he, List.dropWhile_cons_of_neg]
  rw [he] at hc
  simpa using (List.ne_of_not_mem_cons hc).symm

/-- However wide the columns are, different lines look different. -/
theorem eq_of_row (h : l.row column = l'.row column') : l = l' := by
  obtain ⟨hlabel, hbody⟩ := (append_mark_inj (l.not_mem_label (by decide) (by decide) column)
    (l'.not_mem_label (by decide) (by decide) column')).mp h
  -- the labels may be of different widths, but not without their blanks
  have haddress := congrArg (List.dropWhile (· = ' ')) hlabel
  rw [dropWhile_label, dropWhile_label] at haddress
  exact eq_of_body (Numeral.ofNat_injective haddress)
    (String.toList_inj.mp (List.tail_eq_of_cons_eq hbody))

end

end Line

/-- The width of the column of addresses. -/
def addressColumn (ls : List Line) : Nat :=
  (ls.getLast?.map fun l ↦ (Numeral.ofNat l.address).length).getD 1

theorem toList_listingText (ls : List Line) : (listingText ls).toList =
    (ls.map (Line.row (addressColumn ls))).flatMap (· ++ ['\n']) := by
  have hcolumn : (ls.getLast?.map fun l ↦ (Numeral.text l.address).length).getD 1 =
      addressColumn ls := by
    simp only [addressColumn, Numeral.text, String.length_ofList]
  rw [listingText, hcolumn, String.toList_join, List.flatMap_map, List.flatMap_map]
  simp only [Line.toList_text]

theorem eq_of_listingText {ls ls' : List Line} (h : listingText ls = listingText ls') :
    ls = ls' := by
  have h := congrArg String.toList h
  simp only [toList_listingText, List.flatMap_def, List.map_map, Function.comp_def] at h
  rw [← intercalate_nil_eq_flatten, ← intercalate_nil_eq_flatten] at h
  have hl : Legible [] (fun l : Line ↦ l.row (addressColumn ls) ++ ['\n'])
      (fun l ↦ l.row (addressColumn ls') ++ ['\n']) :=
    legible_of_closed (Line.newline_not_mem_row _) (Line.newline_not_mem_row _)
      fun _ _ ↦ Line.eq_of_row
  exact eq_of_intercalate hl (by simp) (by simp) h

/-- The addresses of a listing increase, so that the last of them is the widest. -/
theorem Tiles.address_le_last {pos stop : Nat} {ls : List Line} (h : Tiles pos ls stop)
    {l last : Line} (hl : l ∈ ls) (hlast : ls.getLast? = some last) :
    l.address ≤ last.address := by
  induction h with
  | nil => cases hl
  | @cons pos stop m ls ha h ih =>
    rcases List.mem_cons.mp hl with rfl | hl
    · cases ls with
      | nil => cases hlast; exact Nat.le_refl _
      | cons m ls =>
        rw [List.getLast?_cons_cons] at hlast
        have hbound := (h.address_bounds (List.mem_of_getLast? hlast)).1
        omega
    · obtain ⟨m', ls', rfl⟩ := List.exists_cons_of_ne_nil (List.ne_nil_of_mem hl)
      rw [List.getLast?_cons_cons] at hlast
      exact ih hl hlast

/-- Images with one listing differ at most in the digits of instruction words that are not used. -/
theorem agree_of_disassemble_eq {s t : Store} (h : disassemble s = disassemble t) :
    s.size = t.size ∧
    (∀ a i, .code a i ∈ disassemble s → (s.get a).toInt % 10 ^ (i.opcode.arity + 2) =
      (t.get a).toInt % 10 ^ (i.opcode.arity + 2)) ∧
    ∀ a < s.size, (∀ i, .code a i ∉ disassemble s) → s.get a = t.get a := by
  have hr : reassembled s = reassembled t := by rw [reassembled, reassembled, h]
  have hsize : s.size = t.size := by rw [← size_reassembled s, hr, size_reassembled]
  refine ⟨hsize, fun a i hl ↦ ?_, fun a ha hno ↦ ?_⟩
  · rw [← toInt_reassembled hl, hr, toInt_reassembled (h ▸ hl)]
  · rw [← get_reassembled ha hno, hr, get_reassembled (hsize ▸ ha) (h ▸ hno)]

/-- A listing is told by its text, and an instruction by its own. All that is lost of the image are
digits that are not used. The text has one row for each line, in which the address ends where that
of the last line does. -/
theorem listing_legible :
    (∀ s t : Store, listingText (disassemble s) = listingText (disassemble t) ↔
      disassemble s = disassemble t) ∧
    (∀ s t : Store, listingText (disassemble s) = listingText (disassemble t) →
      s.size = t.size ∧
      (∀ a i, .code a i ∈ disassemble s → (s.get a).toInt % 10 ^ (i.opcode.arity + 2) =
        (t.get a).toInt % 10 ^ (i.opcode.arity + 2)) ∧
      ∀ a < s.size, (∀ i, .code a i ∉ disassemble s) → s.get a = t.get a) ∧
    Function.Injective Instruction.text ∧
    ∀ s : Store, ∃ rows : List (List Char),
      (listingText (disassemble s)).toList = rows.flatMap (· ++ ['\n']) ∧
      List.Forall₂ (fun l row ↦ '\n' ∉ row ∧ ∃ pad,
        row = List.replicate pad ' ' ++ Numeral.ofNat l.address ++ ": ".toList ++ l.body.toList ∧
        (disassemble s).getLast?.map (fun last ↦ (Numeral.ofNat last.address).length) =
          some (pad + (Numeral.ofNat l.address).length)) (disassemble s) rows := by
  refine ⟨fun s t ↦ ⟨eq_of_listingText, fun h ↦ by rw [h]⟩,
    fun s t h ↦ agree_of_disassemble_eq (eq_of_listingText h), fun i j ↦ Instruction.eq_of_text,
    fun s ↦ ⟨_, toList_listingText _, ?_⟩⟩
  rw [List.forall₂_map_right_iff, List.forall₂_same]
  intro l hl
  obtain ⟨last, hlast⟩ : ∃ last, (disassemble s).getLast? = some last :=
    Option.isSome_iff_exists.mp (by simpa using List.ne_nil_of_mem hl)
  have hle := Numeral.length_ofNat_mono ((tiles_disassemble s).address_le_last hl hlast)
  have hcolumn : addressColumn (disassemble s) = (Numeral.ofNat last.address).length := by
    rw [addressColumn, hlast]
    rfl
  refine ⟨l.newline_not_mem_row _,
    addressColumn (disassemble s) - (Numeral.ofNat l.address).length, ?_, ?_⟩
  · simp [Line.row, Line.label]
  · rw [hlast, hcolumn, Nat.sub_add_cancel hle]
    rfl

/-- The program of `sloppy` without the digits that are not used. -/
def tidied : Store := .ofList [104, 5, 0, 99]

theorem listing_legible_of_tidied :
    listingText (disassemble sloppy) = listingText (disassemble tidied) ∧
      sloppy.get 0 ≠ tidied.get 0 ∧
      (sloppy.get 0).toInt % 1000 = (tidied.get 0).toInt % 1000 ∧ sloppy.get 2 = tidied.get 2 := by
  let ls : List Line := [.code 0 (.output ⟨5, .immediate⟩), .data 2 0, .code 3 .halt]
  have hlines {s : Store} (hs : s.size = 4) (hr : ∀ l ∈ ls, l.Reads s) : disassemble s = ls := by
    have ht : Tiles 0 ls s.size := hs ▸ .cons rfl (.cons rfl (.cons rfl (.nil 4)))
    exact (ht.eq_linesFrom hr).symm
  have hsloppy : disassemble sloppy = ls := by
    refine hlines rfl ?_
    simp only [ls, List.forall_mem_cons]
    exact ⟨rfl, ⟨⟨_, rfl⟩, rfl⟩, rfl, nofun⟩
  have htidied : disassemble tidied = ls := by
    refine hlines rfl ?_
    simp only [ls, List.forall_mem_cons]
    exact ⟨rfl, ⟨⟨_, rfl⟩, rfl⟩, rfl, nofun⟩
  have htext := (listing_legible.1 sloppy tidied).mpr (hsloppy.trans htidied.symm)
  obtain ⟨-, hcode, hdata⟩ := listing_legible.2.1 sloppy tidied htext
  refine ⟨htext, by decide, hcode 0 (.output ⟨5, .immediate⟩) (by simp [hsloppy, ls]), ?_⟩
  exact hdata 2 (by decide) (by simp [hsloppy, ls])

end Intcode
