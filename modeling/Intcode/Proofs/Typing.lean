import Intcode.Console
import Intcode.Proofs.Numeral
import Mathlib.Data.List.TakeWhile

namespace Intcode

namespace Text

theorem dropWhile_isBlank {lead mid rest : List Char} (hlead : ∀ c ∈ lead, isBlank c)
    (hmid : ∀ c ∈ mid, ¬isBlank c) (hne : mid ≠ []) :
    (lead ++ (mid ++ rest)).dropWhile isBlank = mid ++ rest := by
  obtain ⟨c, cs, rfl⟩ := List.exists_cons_of_ne_nil hne
  rw [List.dropWhile_append_of_pos hlead, List.cons_append,
    List.dropWhile_cons_of_neg (hmid c List.mem_cons_self)]

/-- Blanks around a text in which there are none are all that is trimmed. -/
theorem trim_of_padded {lead mid trail : List Char} (hlead : ∀ c ∈ lead, isBlank c)
    (hmid : ∀ c ∈ mid, ¬isBlank c) (hne : mid ≠ []) (htrail : ∀ c ∈ trail, isBlank c) :
    trim (lead ++ (mid ++ trail)) = mid := by
  have hrev : (trail.reverse ++ (mid.reverse ++ [])).dropWhile isBlank = mid.reverse ++ [] :=
    dropWhile_isBlank (fun c hc ↦ htrail c (List.mem_reverse.mp hc))
      (fun c hc ↦ hmid c (List.mem_reverse.mp hc)) (mt List.reverse_eq_nil_iff.mp hne)
  rw [List.append_nil] at hrev
  rw [trim, dropWhile_isBlank hlead hmid hne, List.reverse_append, hrev, List.reverse_reverse]

theorem not_isBlank_of_isDigit {c : Char} (h : c.isDigit) : ¬isBlank c := by
  have hc := Char.isDigit_iff_toNat.mp h
  have hl : 48 ≤ c.toNat := hc.1
  have hu : c.toNat ≤ 57 := hc.2
  simp only [isBlank, blankRanges, List.any_cons, List.any_nil, Bool.or_false, Bool.or_eq_true,
    Bool.and_eq_true, decide_eq_true_eq]
  omega

/-- The newline has a byte of its own, that no other character is encoded with. -/
theorem eq_newline_of_mem {c : Char} (h : 10 ∈ String.utf8EncodeChar c) : c = '\n' := by
  have hbyte {n : Nat} (hn : 10 = UInt8.ofNat n) : n % 256 = 10 := by
    have hn := congrArg UInt8.toNat hn
    rw [UInt8.toNat_ofNat'] at hn
    exact hn.symm
  have hhigh {n : Nat} (hl : 128 ≤ n) (hu : n < 256) : 10 ≠ UInt8.ofNat n := by
    intro hn
    have := hbyte hn
    omega
  unfold String.utf8EncodeChar at h
  dsimp only at h
  split at h
  · rename_i hle
    have hle : c.toNat ≤ 127 := hle
    have hc : c.toNat % 256 = 10 := hbyte (List.mem_singleton.mp h)
    have hn : c.toNat = 10 := by omega
    exact Char.toNat_inj.mp hn
  · -- the bytes of a longer encoding all have their highest bit set
    exfalso
    split at h
    · simp only [List.mem_cons, List.not_mem_nil, or_false] at h
      rcases h with h | h <;> exact hhigh (by omega) (by omega) h
    · split at h
      · simp only [List.mem_cons, List.not_mem_nil, or_false] at h
        rcases h with h | h | h <;> exact hhigh (by omega) (by omega) h
      · simp only [List.mem_cons, List.not_mem_nil, or_false] at h
        rcases h with h | h | h | h <;> exact hhigh (by omega) (by omega) h

/-- What has been encoded is read back. -/
theorem fromUTF8?_flatMap (cs : List Char) :
    String.fromUTF8? (cs.flatMap String.utf8EncodeChar).toByteArray = some (String.ofList cs) := by
  have hv : (cs.flatMap String.utf8EncodeChar).toByteArray.IsValidUTF8 := ⟨cs, rfl⟩
  rw [String.fromUTF8?, dif_pos hv]
  rfl

end Text

namespace Numeral

/-- There is no blank in a numeral. -/
theorem not_isBlank_of_value? {cs : List Char} {z : Int} (h : value? cs = some z) :
    cs ≠ [] ∧ ∀ c ∈ cs, ¬Text.isBlank c := by
  have hdigits {ds : List Char} (hn : natValue? ds ≠ none) :
      ds ≠ [] ∧ ∀ c ∈ ds, ¬Text.isBlank c := by
    unfold natValue? at hn
    split at hn
    · rename_i hd
      exact ⟨hd.1, fun c hc ↦ Text.not_isBlank_of_isDigit (List.all_eq_true.mp hd.2 c hc)⟩
    · contradiction
  unfold value? at h
  split at h
  · have hn := hdigits fun hn ↦ by rw [hn] at h; cases h
    exact ⟨nofun, List.forall_mem_cons.mpr ⟨by decide, hn.2⟩⟩
  · have hn := hdigits fun hn ↦ by rw [hn] at h; cases h
    exact ⟨nofun, List.forall_mem_cons.mpr ⟨by decide, hn.2⟩⟩
  · exact hdigits fun hn ↦ by rw [hn] at h; cases h

end Numeral

namespace Console

/-- A line, without the byte that ends it, on which the numeral of `w` is typed. There may be blanks
before it and after it. -/
inductive Line (w : Word) : List UInt8 → Prop
  | mk {lead numeral trail : List Char} (hlead : ∀ c ∈ lead, Text.isBlank c ∧ c ≠ '\n')
      (hn : Numeral.value? numeral = some w.toInt)
      (htrail : ∀ c ∈ trail, Text.isBlank c ∧ c ≠ '\n') :
      Line w ((lead ++ (numeral ++ trail)).flatMap String.utf8EncodeChar)

/-- One word is typed on each line. The last line may lack the byte that ends it. -/
inductive Typed : List Word → List UInt8 → Prop
  | nil : Typed [] []
  | last {w : Word} {line : List UInt8} (hl : Line w line) : Typed [w] line
  | cons {w : Word} {ws : List Word} {line rest : List UInt8} (hl : Line w line)
      (ht : Typed ws rest) : Typed (w :: ws) (line ++ 10 :: rest)

theorem Line.not_mem {w : Word} {line : List UInt8} (hl : Line w line) : 10 ∉ line := by
  cases hl with
  | @mk lead numeral trail hlead hn htrail =>
    intro hm
    obtain ⟨c, hc, hb⟩ := List.mem_flatMap.mp hm
    have hc' := Text.eq_newline_of_mem hb
    rcases List.mem_append.mp hc with hc | hc
    · exact (hlead c hc).2 hc'
    · rcases List.mem_append.mp hc with hc | hc
      · exact (Numeral.not_isBlank_of_value? hn).2 c hc (by rw [hc']; decide)
      · exact (htrail c hc).2 hc'

theorem Line.ne_nil {w : Word} {line : List UInt8} (hl : Line w line) : line ≠ [] := by
  cases hl with
  | mk hlead hn htrail =>
    obtain ⟨c, cs, rfl⟩ := List.exists_cons_of_ne_nil (Numeral.not_isBlank_of_value? hn).1
    intro he
    have hc := List.flatMap_eq_nil_iff.mp he c (by simp)
    exact String.utf8EncodeChar_ne_nil hc

theorem Line.read {w : Word} {line : List UInt8} (hl : Line w line) :
    ∃ text, String.fromUTF8? line.toByteArray = some text ∧
      Numeral.read (Text.trim text.toList) = .ok w := by
  cases hl with
  | mk hlead hn htrail =>
    obtain ⟨hne, hmid⟩ := Numeral.not_isBlank_of_value? hn
    refine ⟨_, Text.fromUTF8?_flatMap _, ?_⟩
    rw [String.toList_ofList, Text.trim_of_padded (fun c hc ↦ (hlead c hc).1) hmid hne
      fun c hc ↦ (htrail c hc).1]
    exact Numeral.read_eq_ok_iff.mpr hn

section
variable {c : Console} {w : Word} {ws : List Word} {line rest : List UInt8}

theorem readLine?_of_ne_nil (h : c.unread ≠ []) : c.readLine? =
    some (c.unread.takeWhile (· ≠ 10),
      { c with unread := c.unread.drop ((c.unread.takeWhile (· ≠ 10)).length + 1) }) := by
  unfold readLine?
  split
  · contradiction
  · rfl

theorem readLine?_of_last (hu : c.unread = line) (hne : line ≠ []) (hm : 10 ∉ line) :
    c.readLine? = some (line, { c with unread := [] }) := by
  have ht : line.takeWhile (· ≠ 10) = line :=
    List.takeWhile_eq_self_iff.mpr fun b hb ↦ by simpa using ne_of_mem_of_not_mem hb hm
  rw [readLine?_of_ne_nil (by rwa [hu]), hu, ht, List.drop_eq_nil_of_le (Nat.le_succ _)]

theorem readLine?_of_line (hu : c.unread = line ++ 10 :: rest) (hm : 10 ∉ line) :
    c.readLine? = some (line, { c with unread := rest }) := by
  have ht : (line ++ 10 :: rest).takeWhile (· ≠ 10) = line := by
    rw [List.takeWhile_append_of_pos fun b hb ↦ by simpa using ne_of_mem_of_not_mem hb hm,
      List.takeWhile_cons_of_neg (by decide), List.append_nil]
  rw [readLine?_of_ne_nil (by simp [hu]), hu, ht]
  simp

theorem ask_of_line (hl : Line w line)
    (hr : (c.print "?? ").readLine? = some (line, { c.print "?? " with unread := rest })) :
    c.ask = (.ok w, { c.print "?? " with unread := rest }) := by
  obtain ⟨text, ht, hw⟩ := hl.read
  simp only [ask, hr, ht, hw]

/-- The word on the next line is read, and the lines after it are left. -/
theorem ask_of_typed (ht : Typed (w :: ws) c.unread) :
    c.ask.1 = .ok w ∧ Typed ws c.ask.2.unread := by
  generalize hu : c.unread = unread at ht
  cases ht with
  | last hl =>
    rw [ask_of_line hl (readLine?_of_last hu hl.ne_nil hl.not_mem)]
    exact ⟨rfl, .nil⟩
  | cons hl ht =>
    rw [ask_of_line hl (readLine?_of_line hu hl.not_mem)]
    exact ⟨rfl, ht⟩

theorem ask_of_done (ht : Typed [] c.unread) :
    c.ask.1 = .error .endOfInput ∧ Typed [] c.ask.2.unread := by
  generalize hu : c.unread = unread at ht
  cases ht with
  | nil =>
    have hr : (c.print "?? ").readLine? = none := by simp only [readLine?, print, hu]
    have ha : c.ask = (.error .endOfInput, c.print "?? ") := by simp only [ask, hr]
    rw [ha, print, hu]
    exact ⟨rfl, .nil⟩

end

end Console

end Intcode
