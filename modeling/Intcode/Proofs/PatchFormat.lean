import Intcode.Patch
import Intcode.Proofs.Flaws
import Intcode.Proofs.Quotation
import Intcode.Proofs.Spelling

namespace Intcode

open Text

theorem Numeral.Flaw.text_injective : Function.Injective Numeral.Flaw.text := by
  intro f g h
  cases f <;> cases g <;> first | rfl | exact absurd h (by decide)

namespace PatchError

def opening : PatchError → String
  | .noEquals _ => "expected ADDR=VALUE, got "
  | .badAddress _ _ => "bad address "
  | .badValue _ _ => "bad value "

/-- The text that is quoted in the message. -/
def refused : PatchError → List Char
  | .noEquals s | .badAddress s _ | .badValue s _ => s

def ending : PatchError → String
  | .noEquals _ => ""
  | .badAddress _ flaw | .badValue _ flaw => ": " ++ flaw.text

theorem message_eq (e : PatchError) :
    e.message = e.opening ++ String.ofList (quoted e.refused) ++ e.ending := by
  cases e with
  | noEquals s => exact String.append_empty.symm
  | badAddress s flaw => exact String.append_assoc
  | badValue s flaw => exact String.append_assoc

theorem mark_not_mem_opening (e : PatchError) : quotationMark ∉ e.opening.toList := by
  cases e <;> simp [opening, quotationMark]

theorem eq_of_parts {e e' : PatchError} (ho : e.opening = e'.opening)
    (hr : e.refused = e'.refused) (he : e.ending = e'.ending) : e = e' := by
  have hflaw {f g : Numeral.Flaw} (h : ": " ++ f.text = ": " ++ g.text) : f = g := by
    have hlist := congrArg String.toList h
    rw [String.toList_append, String.toList_append] at hlist
    exact Numeral.Flaw.text_injective (String.toList_inj.mp (List.append_cancel_left hlist))
  cases e with
  | noEquals s =>
    cases e' with
    | noEquals s' => exact congrArg noEquals hr
    | badAddress s' g => simp [opening] at ho
    | badValue s' g => simp [opening] at ho
  | badAddress s f =>
    cases e' with
    | noEquals s' => simp [opening] at ho
    | badAddress s' g => exact congrArg₂ badAddress hr (hflaw he)
    | badValue s' g => simp [opening] at ho
  | badValue s f =>
    cases e' with
    | noEquals s' => simp [opening] at ho
    | badAddress s' g => simp [opening] at ho
    | badValue s' g => exact congrArg₂ badValue hr (hflaw he)

/-- The message tells what is wrong, and with which text. -/
theorem message_injective : Function.Injective message := by
  intro e e' h
  have hlist := congrArg String.toList h
  simp only [message_eq, String.toList_append, String.toList_ofList, List.append_assoc] at hlist
  obtain ⟨ho, -⟩ := (append_mark_inj (mark_not_mem_opening e) (mark_not_mem_opening e')).mp hlist
  rw [ho] at hlist
  obtain ⟨hr, he⟩ := quoted_append_inj.mp (List.append_cancel_left hlist)
  exact eq_of_parts (String.toList_inj.mp ho) hr (String.toList_inj.mp he)

end PatchError

namespace Patch

open Program

/-- The first equals sign of the text stands between these two. -/
structure Halves (cs left right : List Char) : Prop where
  joined : cs = left ++ '=' :: right
  first : '=' ∉ left

/-- The message for a text that is no patch. What stands in front of the equals sign is looked at
first. -/
inductive Refusal (cs : List Char) : String → Prop
  | noEquals (h : '=' ∉ cs) :
      Refusal cs ("expected ADDR=VALUE, got " ++ String.ofList (quoted cs))
  | address {left right : List Char} {flaw : Numeral.Flaw} (h : Halves cs left right)
      (hl : Numeral.Flawed (trim left) flaw) :
      Refusal cs ("bad address " ++ String.ofList (quoted (trim left)) ++ ": " ++ flaw.text)
  | value {left right : List Char} {a : Word} {flaw : Numeral.Flaw} (h : Halves cs left right)
      (hl : Denotes left a) (hr : Numeral.Flawed (trim right) flaw) :
      Refusal cs ("bad value " ++ String.ofList (quoted (trim right)) ++ ": " ++ flaw.text)

section
variable {text : String} {left right : List Char} {a v : Word} {flaw : Numeral.Flaw} {m : String}

theorem exists_halves {cs : List Char} (h : '=' ∈ cs) : ∃ left right, Halves cs left right := by
  obtain ⟨left, right, he, hf⟩ := List.eq_append_cons_of_mem h
  exact ⟨left, right, he, hf⟩

theorem parse_of_not_mem (h : '=' ∉ text.toList) :
    parse text = .error (.noEquals text.toList) := by
  have hs : text.toList.span (· ≠ '=') = (text.toList, []) := by
    have hne : ∀ c ∈ text.toList, decide (c ≠ '=') := fun c hc ↦ by
      simpa using ne_of_mem_of_not_mem hc h
    rw [List.span_eq_takeWhile_dropWhile, List.takeWhile_eq_self_iff.mpr hne,
      List.dropWhile_eq_nil_iff.mpr hne]
  rw [parse, hs]

theorem read_iff_denotes : Numeral.read (trim left) = .ok a ↔ Denotes left a :=
  Numeral.read_eq_ok_iff

section
variable (h : Halves text.toList left right)
include h

theorem parse_of_bad_address (hl : Numeral.read (trim left) = .error flaw) :
    parse text = .error (.badAddress (trim left) flaw) := by
  rw [parse, h.joined, span_mark h.first]
  simp only [hl]

theorem parse_of_bad_value (hl : Numeral.read (trim left) = .ok a)
    (hr : Numeral.read (trim right) = .error flaw) :
    parse text = .error (.badValue (trim right) flaw) := by
  rw [parse, h.joined, span_mark h.first]
  simp only [hl, hr]

theorem parse_of_denotes (hl : Denotes left a) (hr : Denotes right v) :
    parse text = .ok ⟨a, v⟩ := by
  rw [parse, h.joined, span_mark h.first]
  simp only [read_iff_denotes.mpr hl, read_iff_denotes.mpr hr]

/-- The address is looked at whatever the value is, and the value only where there is an address. -/
theorem blamed_half :
    ((∃ flaw, parse text = .error (.badAddress (trim left) flaw)) ↔ ∀ a, ¬Denotes left a) ∧
    ((∃ flaw, parse text = .error (.badValue (trim right) flaw)) ↔
      (∃ a, Denotes left a) ∧ ∀ v, ¬Denotes right v) := by
  simp only [← read_iff_denotes]
  cases hl : Numeral.read (trim left) with
  | error flaw => simp [parse_of_bad_address h hl]
  | ok a =>
    cases hr : Numeral.read (trim right) with
    | error flaw => simp [parse_of_bad_value h hl hr]
    | ok v => simp [parse_of_denotes h (read_iff_denotes.mp hl) (read_iff_denotes.mp hr)]

end

/-- A text is refused, or its halves denote the two words of a patch. -/
theorem parse_cases (text : String) :
    (∃ e, parse text = .error e ∧ Refusal text.toList e.message) ∨
    ∃ p left right, parse text = .ok p ∧ Halves text.toList left right ∧
      Denotes left p.address ∧ Denotes right p.value := by
  by_cases hm : '=' ∈ text.toList
  · obtain ⟨left, right, h⟩ := exists_halves hm
    cases hl : Numeral.read (trim left) with
    | error flaw =>
      exact .inl ⟨_, parse_of_bad_address h hl, .address h (Numeral.read_eq_error_iff.mp hl)⟩
    | ok a =>
      have ha := read_iff_denotes.mp hl
      cases hr : Numeral.read (trim right) with
      | error flaw =>
        exact .inl ⟨_, parse_of_bad_value h hl hr, .value h ha (Numeral.read_eq_error_iff.mp hr)⟩
      | ok v =>
        have hv := read_iff_denotes.mp hr
        exact .inr ⟨⟨a, v⟩, left, right, parse_of_denotes h ha hv, h, ha, hv⟩
  · exact .inl ⟨_, parse_of_not_mem hm, .noEquals hm⟩

theorem Refusal.parse (h : Refusal text.toList m) :
    ∃ e, parse text = .error e ∧ e.message = m := by
  cases h with
  | noEquals h => exact ⟨_, parse_of_not_mem h, rfl⟩
  | @address left right flaw h hl =>
    exact ⟨.badAddress (trim left) flaw, parse_of_bad_address h hl.read, rfl⟩
  | @value left right a flaw h hl hr =>
    exact ⟨.badValue (trim right) flaw,
      parse_of_bad_value h (read_iff_denotes.mpr hl) hr.read, rfl⟩

theorem parse_eq_ok_iff {p : Patch} : parse text = .ok p ↔
    ∃ left right, Halves text.toList left right ∧ Denotes left p.address ∧
      Denotes right p.value := by
  constructor
  · intro hp
    obtain ⟨e, he, -⟩ | ⟨q, left, right, hq, h⟩ := parse_cases text
    · rw [he] at hp
      cases hp
    · rw [hq] at hp
      cases hp
      exact ⟨left, right, h⟩
  · rintro ⟨left, right, h, hl, hr⟩
    exact parse_of_denotes h hl hr

theorem parse_eq_error_iff {e : PatchError} :
    parse text = .error e ↔ Refusal text.toList e.message := by
  constructor
  · intro he
    obtain ⟨e', he', h⟩ | ⟨p, left, right, hp, -⟩ := parse_cases text
    · rw [he'] at he
      cases he
      exact h
    · rw [hp] at he
      cases he
  · intro h
    obtain ⟨e', he', hm⟩ := h.parse
    rwa [PatchError.message_injective hm] at he'

theorem parse_of_padded (hl : Padded left a) (hr : Padded right v)
    (h : text.toList = left ++ '=' :: right) : parse text = .ok ⟨a, v⟩ :=
  parse_of_denotes ⟨h, hl.not_mem (by decide) (by decide) (by decide)⟩ hl.denotes hr.denotes

end

/-- The patches are the texts whose halves denote two words, blanks aside. For every other text
there is a message for what is wrong first, and the address is looked at before the value. -/
theorem parse_classifies (text : String) :
    (∀ p, parse text = .ok p ↔ ∃ left right, Halves text.toList left right ∧
      Denotes left p.address ∧ Denotes right p.value) ∧
    (∀ e, parse text = .error e ↔ Refusal text.toList e.message) ∧
    (∀ left right, Halves text.toList left right →
      ((∃ flaw, parse text = .error (.badAddress (trim left) flaw)) ↔ ∀ a, ¬Denotes left a) ∧
      ((∃ flaw, parse text = .error (.badValue (trim right) flaw)) ↔
        (∃ a, Denotes left a) ∧ ∀ v, ¬Denotes right v)) ∧
    ∀ left right a v, Padded left a → Padded right v → text.toList = left ++ '=' :: right →
      parse text = .ok ⟨a, v⟩ := by
  refine ⟨fun p ↦ parse_eq_ok_iff, fun e ↦ parse_eq_error_iff, fun left right h ↦ ?_, ?_⟩
  · exact blamed_half h
  · intro left right a v hl hr h
    exact parse_of_padded hl hr h

/-- Garbage behind a number that may still be a word is an invalid digit, and behind one that is
none it is not looked at. -/
theorem parse_classifies_of_brink :
    let padded := "\t-9223372036854775808 = 7\u3000"
    let early := "922337203685477580x="
    let late := "+007 =-92233720368547758089=1"
    parse padded = .ok ⟨-9223372036854775808, 7⟩ ∧
    parse early = .error (.badAddress "922337203685477580x".toList .badDigit) ∧
    parse late = .error (.badValue "-92233720368547758089=1".toList .tooSmall) := by
  intro padded early late
  have hl := @Padded.mk ['\t'] [' '] (-9223372036854775808)
    (List.forall_mem_singleton.mpr (by decide)) (List.forall_mem_singleton.mpr (by decide))
  have hr := @Padded.mk [' '] ['\u3000'] 7 (List.forall_mem_singleton.mpr (by decide))
    (List.forall_mem_singleton.mpr (by decide))
  have hpadded := (parse_classifies padded).2.2.2 _ _ _ _ hl hr (by decide)
  have hx : Numeral.Flawed (trim "922337203685477580x".toList) .badDigit :=
    @Numeral.Flawed.badDigit _ "922337203685477580".toList [] 'x' (by decide) (by decide)
      (by decide)
  have hearly := ((parse_classifies early).2.1 (.badAddress _ _)).mpr
    (@Refusal.address _ _ [] _ ⟨by decide, by decide⟩ hx)
  have hseven : Denotes "+007 ".toList 7 := by
    unfold Denotes
    decide
  have hnine : Numeral.Flawed (trim "-92233720368547758089=1".toList) .tooSmall :=
    @Numeral.Flawed.outOfRange _ "9223372036854775808".toList "=1".toList '9' (by decide)
      (by decide) (by decide) (by decide)
  have hlate := ((parse_classifies late).2.1 (.badValue _ _)).mpr
    (.value ⟨by decide, by decide⟩ hseven hnine)
  exact ⟨hpadded, hearly, hlate⟩

end Patch

end Intcode
