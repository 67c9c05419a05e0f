import DesignRecipe.Json.Reader
import DesignRecipe.Json.Writer
import Mathlib.Data.Nat.Digits.Lemmas

/-!
# Escaped characters

A character is read back from the way it is written between quotes: as itself, by a letter behind a
backslash, or by its code units in hexadecimal digits. The code units of a text join to the text
again, and all that is written is ASCII.
-/
namespace DesignRecipe

/-! ### Code units -/

namespace Text.Utf16

variable {c : Char} {n : ℕ}

theorem not_surrogate (c : Char) :
    isHighSurrogate c.toNat = false ∧ isLowSurrogate c.toNat = false := by
  have hvalid : c.toNat < 0xd800 ∨ 0xdfff < c.toNat ∧ c.toNat < 0x110000 := c.valid
  simp only [isHighSurrogate, isLowSurrogate, Bool.and_eq_false_iff, decide_eq_false_iff_not]
  omega

theorem toNat_lt (c : Char) : c.toNat < 0x110000 := by
  have hvalid : c.toNat < 0xd800 ∨ 0xdfff < c.toNat ∧ c.toNat < 0x110000 := c.valid
  omega

theorem unitsOf_of_lt (h : c.toNat < 0x10000) : unitsOf c = [c.toNat] := if_pos h

theorem unit_lt_of_mem_unitsOf (h : n ∈ unitsOf c) : n < 0x10000 := by
  have hlt := toNat_lt c
  unfold unitsOf at h
  dsimp only at h
  split at h
  · obtain rfl := List.mem_singleton.1 h
    assumption
  · simp only [List.mem_cons, List.not_mem_nil, or_false] at h
    omega

theorem charOf_toNat (c : Char) : charOf c.toNat = c := by
  obtain ⟨hhigh, hlow⟩ := not_surrogate c
  rw [charOf, hhigh, hlow]
  exact Char.ofNat_toNat c

theorem joinUnits_unitsOf_append (c : Char) (units : List ℕ) :
    joinUnits (unitsOf c ++ units) = c :: joinUnits units := by
  by_cases hshort : c.toNat < 0x10000
  · rw [unitsOf_of_lt hshort]
    cases units with
    | nil => simp [joinUnits, charOf_toNat]
    | cons m units => simp [joinUnits, (not_surrogate c).1, charOf_toNat]
  · have hlt := toNat_lt c
    have hpair : unitsOf c =
        [0xd800 + (c.toNat - 0x10000) / 0x400, 0xdc00 + (c.toNat - 0x10000) % 0x400] :=
      if_neg hshort
    have hhigh : isHighSurrogate (0xd800 + (c.toNat - 0x10000) / 0x400) = true := by
      simp only [isHighSurrogate, Bool.and_eq_true, decide_eq_true_eq]
      omega
    have hlow : isLowSurrogate (0xdc00 + (c.toNat - 0x10000) % 0x400) = true := by
      simp only [isLowSurrogate, Bool.and_eq_true, decide_eq_true_eq]
      omega
    have hpoint : 0x10000 + (0xd800 + (c.toNat - 0x10000) / 0x400 - 0xd800) * 0x400 +
        (0xdc00 + (c.toNat - 0x10000) % 0x400 - 0xdc00) = c.toNat := by omega
    rw [hpair, List.cons_append, List.cons_append, List.nil_append, joinUnits, hhigh, hlow,
      hpoint, Char.ofNat_toNat]
    rfl

/-- The code units of a text are those of this text only. -/
theorem joinUnits_flatMap_unitsOf (s : Text) : joinUnits (s.flatMap unitsOf) = s := by
  induction s with
  | nil => rfl
  | cons c s ih => rw [List.flatMap_cons, joinUnits_unitsOf_append, ih]

end Text.Utf16

namespace Json

open Json.Token Text.Utf16

/-! ### Hexadecimal digits -/

section hex

variable {c : Char} {digits : Text} {n d : ℕ}

theorem hexDigit?_digitChar : ∀ d < 16, hexDigit? d.digitChar = some d := by decide

theorem isAscii_of_hexDigit? (h : hexDigit? c = some d) : c.toNat < 128 := by
  unfold hexDigit? at h
  split_ifs at h with hdigit hlower hupper
  · exact Nat.lt_of_le_of_lt (show c.toNat ≤ '9'.toNat from hdigit.2) (by decide)
  · exact Nat.lt_of_le_of_lt (show c.toNat ≤ 'f'.toNat from hlower.2) (by decide)
  · exact Nat.lt_of_le_of_lt (show c.toNat ≤ 'F'.toNat from hupper.2) (by decide)

theorem hexValue?_concat (h : hexValue? digits = some n) (hc : hexDigit? c = some d) :
    hexValue? (digits ++ [c]) = some (16 * n + d) := by
  obtain ⟨ds, hds, rfl⟩ := Option.map_eq_some_iff.1 h
  simp [hexValue?, List.mapM_append, hds, hc]

theorem hexValue?_zero_cons (digits : Text) : hexValue? ('0' :: digits) = hexValue? digits := by
  have hzero : hexDigit? '0' = some 0 := rfl
  rw [hexValue?, List.mapM_cons, hzero]
  cases hdigits : digits.mapM hexDigit? <;> simp [hexValue?, hdigits]

theorem hexValue?_toDigits (n : ℕ) : hexValue? (Nat.toDigits 16 n) = some n := by
  induction n using Nat.strong_induction_on with
  | _ n ih =>
    rcases Nat.lt_or_ge n 16 with hlt | hge
    · rw [Nat.toDigits_of_lt_base hlt]
      simp [hexValue?, hexDigit?_digitChar n hlt]
    · have hlast : n % 16 < 16 := Nat.mod_lt n (by decide)
      have hfront := ih (n / 16) (by omega)
      have hsplit :=
        Nat.toDigits_append_toDigits (b := 16) (n := n / 16) (by decide) (by omega) hlast
      rw [Nat.div_add_mod, Nat.toDigits_of_lt_base hlast] at hsplit
      rw [← hsplit, hexValue?_concat hfront (hexDigit?_digitChar _ hlast), Nat.div_add_mod]

/-- Leading zeros do not change the value. -/
theorem hexValue?_hex (width n : ℕ) : hexValue? (Text.hex width n) = some n := by
  unfold Text.hex
  dsimp only
  induction width - (Nat.toDigits 16 n).length with
  | zero => exact hexValue?_toDigits n
  | succ k ih => rw [List.replicate_succ, List.cons_append, hexValue?_zero_cons, ih]

theorem length_hex (h : n < 0x10000) : (Text.hex 4 n).length = 4 := by
  have hle : (Nat.toDigits 16 n).length ≤ 4 :=
    (Nat.length_toDigits_le_iff (by decide) (by decide)).2 h
  simp only [Text.hex, List.length_append, List.length_replicate]
  omega

theorem isAscii_of_mapM_hexDigit? {ds : List ℕ} (h : digits.mapM hexDigit? = some ds)
    (hc : c ∈ digits) : c.toNat < 128 := by
  induction digits generalizing ds with
  | nil => cases hc
  | cons e digits ih =>
    rw [List.mapM_cons] at h
    obtain ⟨d, hd, h⟩ := Option.bind_eq_some_iff.1 h
    obtain ⟨ds, hds, -⟩ := Option.bind_eq_some_iff.1 h
    rcases List.mem_cons.1 hc with rfl | hc
    · exact isAscii_of_hexDigit? hd
    · exact ih hds hc

theorem isAscii_of_mem_hex {width : ℕ} (h : c ∈ Text.hex width n) : c.toNat < 128 := by
  obtain ⟨ds, hds, -⟩ := Option.map_eq_some_iff.1 (hexValue?_hex width n)
  exact isAscii_of_mapM_hexDigit? hds h

end hex

/-! ### Characters between quotes -/

variable {c : Char} {n : ℕ}

/-- Puts code units in front of those that were read, and counts the characters they take. -/
def prepend (codes : List ℕ) (length : ℕ) (found : List ℕ × ℕ) : List ℕ × ℕ :=
  (codes ++ found.1, found.2 + length)

theorem units_escapeUnit (h : n < 0x10000) (s : Text) :
    units (escapeUnit n ++ s) = (units s).map (prepend [n] 6) := by
  have hvalue := hexValue?_hex 4 n
  obtain ⟨a, b, c, d, hdigits⟩ : ∃ a b c d, Text.hex 4 n = [a, b, c, d] := by
    have hlength := length_hex h
    match hex : Text.hex 4 n, hlength with
    | [a, b, c, d], _ => exact ⟨a, b, c, d, rfl⟩
  rw [hdigits] at hvalue
  rw [escapeUnit, hdigits]
  simp only [List.cons_append, List.nil_append, units, hvalue]
  cases units s <;> rfl

theorem units_escaped {d : Char} (h : escaped? c = some d) (s : Text) :
    units ('\\' :: c :: s) = (units s).map (prepend [d.toNat] 2) := by
  have hunit : c ≠ 'u' := by
    rintro rfl
    cases h
  rw [units]
  · rw [h]
    cases units s <;> rfl
  · intro _ _ _ _ _ hc
    exact absurd hc hunit

theorem units_printable (hprint : ' ' ≤ c ∧ c ≤ '~') (hquote : c ≠ '"') (hslash : c ≠ '\\')
    (s : Text) : units (c :: s) = (units s).map (prepend [c.toNat] 1) := by
  have hspace : ¬c.toNat < 0x20 := Nat.not_lt.2 (show ' '.toNat ≤ c.toNat from hprint.1)
  rw [units]
  · rw [if_neg hspace]
    cases units s <;> rfl
  · exact hquote
  · intro _ _ _ _ _ hc
    exact absurd hc hslash
  · intro _ _ hc
    exact absurd hc hslash

theorem map_prepend_map (found : Option (List ℕ × ℕ)) (codes more : List ℕ) (k m : ℕ) :
    (found.map (prepend more m)).map (prepend codes k) =
      found.map (prepend (codes ++ more) (k + m)) := by
  cases found with
  | none => rfl
  | some found => simp [prepend, Nat.add_left_comm, Nat.add_comm]

theorem units_flatMap_escapeUnit {codes : List ℕ} (h : ∀ n ∈ codes, n < 0x10000) (s : Text) :
    units (codes.flatMap escapeUnit ++ s) =
      (units s).map (prepend codes (codes.flatMap escapeUnit).length) := by
  induction codes with
  | nil => cases hs : units s <;> simp [hs, prepend]
  | cons n codes ih =>
    obtain ⟨hn, hcodes⟩ := List.forall_mem_cons.1 h
    have hlength : (escapeUnit n).length = 6 := by simp [escapeUnit, length_hex hn]
    rw [List.flatMap_cons, List.append_assoc, units_escapeUnit hn, ih hcodes, map_prepend_map,
      List.length_append, hlength]
    rfl

theorem isAscii_of_escaped? {d : Char} (h : escaped? d = some c) :
    d.toNat < 128 ∧ c.toNat < 128 := by
  unfold escaped? at h
  split at h
  iterate 8
    cases h
    decide
  cases h

theorem escapeChar_cases (c : Char) :
    (∃ d, escapeChar c = ['\\', d] ∧ escaped? d = some c) ∨
      ((' ' ≤ c ∧ c ≤ '~') ∧ c ≠ '"' ∧ c ≠ '\\' ∧ escapeChar c = [c]) ∨
      escapeChar c = (unitsOf c).flatMap escapeUnit := by
  unfold escapeChar
  split
  iterate 7 exact .inl ⟨_, rfl, rfl⟩
  next hquote hslash _ _ _ _ _ =>
    split_ifs with hprint
    · exact .inr (.inl ⟨hprint, hquote, hslash, rfl⟩)
    · exact .inr (.inr rfl)

/-- A character between quotes is read as its code units. -/
theorem units_escapeChar (c : Char) (s : Text) :
    units (escapeChar c ++ s) = (units s).map (prepend (unitsOf c) (escapeChar c).length) := by
  rcases escapeChar_cases c with ⟨d, hc, hd⟩ | ⟨hprint, hquote, hslash, hc⟩ | hc
  · have hascii := (isAscii_of_escaped? hd).2
    rw [hc, unitsOf_of_lt (by omega)]
    exact units_escaped hd s
  · have hascii : c.toNat ≤ '~'.toNat := hprint.2
    rw [hc, unitsOf_of_lt (Nat.lt_of_le_of_lt hascii (by decide))]
    exact units_printable hprint hquote hslash s
  · rw [hc]
    exact units_flatMap_escapeUnit (fun n => unit_lt_of_mem_unitsOf) s

theorem units_flatMap_escapeChar (s t : Text) :
    units (s.flatMap escapeChar ++ '"' :: t) =
      some (s.flatMap unitsOf, (s.flatMap escapeChar).length + 1) := by
  induction s with
  | nil => rfl
  | cons c s ih =>
    rw [List.flatMap_cons, List.append_assoc, units_escapeChar, ih, List.length_append]
    simp [prepend, Nat.add_left_comm, Nat.add_comm]

theorem isAscii_of_mem_escapeChar {d : Char} (h : d ∈ escapeChar c) : d.toNat < 128 := by
  rcases escapeChar_cases c with ⟨e, hc, he⟩ | ⟨hprint, -, -, hc⟩ | hc
  · rw [hc, List.mem_cons, List.mem_singleton] at h
    rcases h with rfl | rfl
    · decide
    · exact (isAscii_of_escaped? he).1
  · have hascii : c.toNat ≤ '~'.toNat := hprint.2
    rw [hc, List.mem_singleton] at h
    rw [h]
    exact Nat.lt_of_le_of_lt hascii (by decide)
  · rw [hc, List.mem_flatMap] at h
    obtain ⟨n, -, hd⟩ := h
    rw [escapeUnit, List.mem_cons, List.mem_cons] at hd
    rcases hd with rfl | rfl | hd
    · decide
    · decide
    · exact isAscii_of_mem_hex hd

end Json

end DesignRecipe
