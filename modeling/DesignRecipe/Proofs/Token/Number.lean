import DesignRecipe.Token.Rule
import Mathlib.Computability.RegularExpressions
import Mathlib.Data.List.TakeWhile
import Mathlib.Tactic

/-!
# The language of numbers

Numbers are written in a regular language. The rule for numbers takes each of their parts as
far as it goes and never gives a character back; it takes a whole text all the same
exactly when the text belongs to the language, as long as no name goes on behind it.
-/
namespace DesignRecipe

/-- No character of the class stands at the front. -/
def Text.Stops (p : Char → Bool) (t : Text) : Prop := ∀ c ∈ t.head?, p c = false

namespace Text

variable {p q : Char → Bool} {s t : Text}

@[simp] theorem stops_nil : Stops p [] := by simp [Stops]

@[simp] theorem stops_cons {c : Char} : Stops p (c :: t) ↔ p c = false := by simp [Stops]

theorem Stops.mono (hpq : ∀ c, q c = true → p c = true) (h : Stops p t) : Stops q t := by
  intro c hc
  by_contra hq
  have hp := hpq c (by simpa using hq)
  simp [h c hc] at hp

theorem stops_dropWhile : Stops p (s.dropWhile p) := by
  induction s with
  | nil => simp
  | cons c s ih => cases hc : p c <;> simp [hc, ih]

theorem takeWhile_append_of_stops (hs : ∀ c ∈ s, p c = true) (ht : Stops p t) :
    (s ++ t).takeWhile p = s := by
  rw [List.takeWhile_append_of_pos hs]
  cases t with
  | nil => simp
  | cons c t => simp [stops_cons.1 ht]

theorem take_length_takeWhile : s.take (s.takeWhile p).length = s.takeWhile p :=
  (List.prefix_iff_eq_take.1 (List.takeWhile_prefix p)).symm

theorem length_takeWhile_le : (s.takeWhile p).length ≤ s.length :=
  (List.takeWhile_prefix p).length_le

end Text

namespace Token.Number

open RegularExpression

/-- One of some characters. -/
def oneOf (cs : List Char) : RegularExpression Char := (cs.map char).sum

def optional (P : RegularExpression Char) : RegularExpression Char := 1 + P

def sign : RegularExpression Char := oneOf ['-', '+']

def digit : RegularExpression Char := oneOf "0123456789".toList

def digits : RegularExpression Char := digit * star digit

/-- `[0-9]+(?:\.?[0-9]*)?|\.[0-9]+` -/
def magnitude : RegularExpression Char :=
  digits * optional (optional (char '.') * star digit) + char '.' * digits

/-- `e[-+]?[0-9]+` -/
def exponent : RegularExpression Char := char 'e' * optional sign * digits

/-- `[-+]?(?:[0-9]+(?:\.?[0-9]*)?|\.[0-9]+)(?:e[-+]?[0-9]+)?` -/
def pattern : RegularExpression Char := optional sign * magnitude * optional exponent

variable {s t : Text}

theorem mem_char {c : Char} : s ∈ (char c).matches' ↔ s = [c] := Iff.rfl

theorem mem_oneOf {cs : List Char} : s ∈ (oneOf cs).matches' ↔ ∃ c ∈ cs, s = [c] := by
  induction cs with
  | nil => simp [oneOf, matches'_zero]
  | cons c cs ih =>
    have hsum : (oneOf (c :: cs)).matches' = (char c).matches' + (oneOf cs).matches' := rfl
    rw [hsum, Language.mem_add, ih, mem_char]
    simp

theorem mem_optional {P : RegularExpression Char} :
    s ∈ (optional P).matches' ↔ s = [] ∨ s ∈ P.matches' :=
  Language.mem_add _ _ _

theorem mem_digitChars {c : Char} : c ∈ "0123456789".toList ↔ c.isDigit = true := by
  have hdigits : "0123456789".toList.all Char.isDigit = true := by decide
  constructor
  · exact List.all_eq_true.1 hdigits c
  · intro hc
    have hbounds : 48 ≤ c.toNat ∧ c.toNat ≤ 57 := by
      simpa [Char.isDigit, UInt32.le_iff_toNat_le] using hc
    rw [← Char.ofNat_toNat c]
    generalize c.toNat = n at hbounds
    obtain ⟨hlo, hhi⟩ := hbounds
    interval_cases n <;> decide

theorem mem_digit : s ∈ digit.matches' ↔ ∃ c : Char, c.isDigit = true ∧ s = [c] := by
  simp only [digit, mem_oneOf, mem_digitChars]

theorem mem_star_digit : s ∈ (star digit).matches' ↔ ∀ c ∈ s, c.isDigit = true := by
  rw [matches'_star, Language.mem_kstar]
  constructor
  · rintro ⟨parts, rfl, hparts⟩ c hc
    obtain ⟨part, hpart, hmem⟩ := List.mem_flatten.1 hc
    obtain ⟨d, hd, rfl⟩ := mem_digit.1 (hparts part hpart)
    rwa [List.mem_singleton.1 hmem]
  · intro h
    refine ⟨s.map fun c => [c], by simp [← List.flatMap_def], ?_⟩
    intro part hpart
    obtain ⟨c, hc, rfl⟩ := List.mem_map.1 hpart
    exact mem_digit.2 ⟨c, h c hc, rfl⟩

theorem mem_digits : s ∈ digits.matches' ↔ s ≠ [] ∧ ∀ c ∈ s, c.isDigit = true := by
  rw [digits, matches'_mul, Language.mem_mul]
  constructor
  · rintro ⟨x, hx, y, hy, rfl⟩
    obtain ⟨c, hc, rfl⟩ := mem_digit.1 hx
    simpa [hc] using mem_star_digit.1 hy
  · rintro ⟨hne, hall⟩
    cases s with
    | nil => exact absurd rfl hne
    | cons c s =>
      refine ⟨[c], mem_digit.2 ⟨c, hall c (by simp), rfl⟩, s, mem_star_digit.2 ?_, rfl⟩
      intro d hd
      exact hall d (List.mem_cons_of_mem c hd)

/-! ### What the rule takes -/

theorem take_signs_mem : s.take (Rule.signs s) ∈ (optional sign).matches' := by
  rw [mem_optional, sign, mem_oneOf]
  unfold Rule.signs
  split <;> simp

theorem take_digits (s : Text) : s.take (Rule.digits s) = s.takeWhile Char.isDigit :=
  Text.take_length_takeWhile

theorem take_digits_mem : s.take (Rule.digits s) ∈ (star digit).matches' := by
  rw [take_digits, mem_star_digit]
  intro c hc
  exact List.mem_takeWhile_imp hc

theorem take_digits_mem_of_pos (h : 0 < Rule.digits s) :
    s.take (Rule.digits s) ∈ digits.matches' := by
  refine mem_digits.2 ⟨?_, mem_star_digit.1 take_digits_mem⟩
  rw [take_digits]
  exact List.length_pos_iff.1 h

theorem take_fraction_mem :
    s.take (Rule.fraction s) ∈ (optional (optional (char '.') * star digit)).matches' := by
  rw [mem_optional]
  unfold Rule.fraction
  split
  · next u =>
    refine .inr (Language.mem_mul.2 ⟨['.'], ?_, u.take (Rule.digits u), take_digits_mem, ?_⟩)
    · exact mem_optional.2 (.inr rfl)
    · simp [Nat.add_comm 1]
  · simp

theorem take_magnitude_mem {n : ℕ} (h : Rule.magnitude s = some n) :
    s.take n ∈ magnitude.matches' := by
  unfold Rule.magnitude at h
  dsimp only at h
  rw [magnitude, matches'_add, Language.mem_add]
  split_ifs at h with hwhole hpoint
  · cases h
    rw [List.take_add]
    exact .inl (Language.append_mem_mul (take_digits_mem_of_pos hwhole) take_fraction_mem)
  · cases h
    unfold Rule.fraction at hpoint ⊢
    split at hpoint
    · next u =>
      have hpos : 0 < Rule.digits u := by omega
      refine .inr (Language.mem_mul.2 ⟨['.'], rfl, _, take_digits_mem_of_pos hpos, ?_⟩)
      simp [Nat.add_comm 1]
    · omega

theorem take_exponent_mem : s.take (Rule.exponent s) ∈ (optional exponent).matches' := by
  rw [mem_optional]
  unfold Rule.exponent
  split
  · next u =>
    dsimp only
    split_ifs with hpower
    · refine .inr (Language.mem_mul.2 ⟨'e' :: u.take (Rule.signs u), ?_, _,
        take_digits_mem_of_pos hpower, ?_⟩)
      · exact Language.mem_mul.2 ⟨['e'], rfl, _, take_signs_mem, rfl⟩
      · rw [Nat.add_assoc, Nat.add_comm 1, List.take_succ_cons, List.take_add, List.cons_append]
    · simp
  · simp

/-- Whatever the rule takes is a number of the language. -/
theorem take_number_mem {n : ℕ} (h : Rule.number s = some n) : s.take n ∈ pattern.matches' := by
  obtain ⟨m, hm, rfl⟩ := Option.map_eq_some_iff.1 h
  rw [List.take_add, List.take_add]
  exact Language.append_mem_mul
    (Language.append_mem_mul take_signs_mem (take_magnitude_mem hm)) take_exponent_mem

/-! ### How far the rule goes -/

/-- Digits and points, which could go on with the part of a number before its exponent. -/
def isMagnitudeChar (c : Char) : Bool := c.isDigit || c == '.'

def isNumberChar (c : Char) : Bool := isMagnitudeChar c || c == '+' || c == '-' || c == 'e'

theorem digits_append (hs : ∀ c ∈ s, c.isDigit = true) (ht : Text.Stops Char.isDigit t) :
    Rule.digits (s ++ t) = s.length := by
  rw [Rule.digits, Text.takeWhile_append_of_stops hs ht]

theorem signs_of_stops (ht : Text.Stops (fun c => c == '+' || c == '-') t) : Rule.signs t = 0 := by
  unfold Rule.signs
  split <;> simp_all

theorem signs_append (hs : s ∈ (optional sign).matches')
    (ht : Text.Stops (fun c => c == '+' || c == '-') t) : Rule.signs (s ++ t) = s.length := by
  rw [mem_optional, sign, mem_oneOf] at hs
  rcases hs with rfl | ⟨c, hc, rfl⟩
  · exact signs_of_stops ht
  · simp only [List.mem_cons, List.not_mem_nil, or_false] at hc
    rcases hc with rfl | rfl <;> rfl

theorem fraction_of_stops (ht : Text.Stops isMagnitudeChar t) : Rule.fraction t = 0 := by
  unfold Rule.fraction
  split
  · simp [isMagnitudeChar] at ht
  · rfl

theorem fraction_point (hs : ∀ c ∈ s, c.isDigit = true) (ht : Text.Stops Char.isDigit t) :
    Rule.fraction ('.' :: (s ++ t)) = 1 + s.length := by
  rw [Rule.fraction, digits_append hs ht]

theorem magnitude_of_whole (hs : s ∈ digits.matches') (ht : Text.Stops Char.isDigit t) :
    Rule.magnitude (s ++ t) = some (s.length + Rule.fraction t) := by
  obtain ⟨hne, hall⟩ := mem_digits.1 hs
  have hpos : 0 < s.length := List.length_pos_iff.2 hne
  simp [Rule.magnitude, digits_append hall ht, hpos]

theorem magnitude_append (hs : s ∈ magnitude.matches') (ht : Text.Stops isMagnitudeChar t) :
    Rule.magnitude (s ++ t) = some s.length := by
  have htd : Text.Stops Char.isDigit t := ht.mono (by simp +contextual [isMagnitudeChar])
  rw [magnitude, matches'_add, Language.mem_add, matches'_mul, matches'_mul] at hs
  rcases hs with hs | hs
  · obtain ⟨whole, hwhole, frac, hfrac, rfl⟩ := Language.mem_mul.1 hs
    rw [mem_optional] at hfrac
    rcases hfrac with rfl | hfrac
    · rw [List.append_nil, magnitude_of_whole hwhole htd, fraction_of_stops ht, Nat.add_zero]
    · obtain ⟨point, hpoint, more, hmore, rfl⟩ := Language.mem_mul.1 hfrac
      rw [mem_star_digit] at hmore
      rw [mem_optional] at hpoint
      rcases hpoint with rfl | rfl
      · -- without a point the pattern may cut the digits anywhere; the rule does not cut them
        obtain ⟨hne, hall⟩ := mem_digits.1 hwhole
        have hjoined : whole ++ more ∈ digits.matches' := by
          refine mem_digits.2 ⟨by simp [hne], ?_⟩
          intro c hc
          exact (List.mem_append.1 hc).elim (hall c) (hmore c)
        rw [List.nil_append, magnitude_of_whole hjoined htd, fraction_of_stops ht, Nat.add_zero]
      · have hstop : Text.Stops Char.isDigit (['.'] ++ (more ++ t)) := by simp
        rw [List.append_assoc, List.append_assoc, magnitude_of_whole hwhole hstop,
          List.singleton_append, fraction_point hmore htd]
        simp [Nat.add_comm 1]
  · obtain ⟨point, hpoint, frac, hfrac, rfl⟩ := Language.mem_mul.1 hs
    obtain rfl : point = ['.'] := hpoint
    obtain ⟨hne, hall⟩ := mem_digits.1 hfrac
    have hpos : 0 < frac.length := List.length_pos_iff.2 hne
    have hzero : Rule.digits ('.' :: (frac ++ t)) = 0 := rfl
    simp [Rule.magnitude, hzero, fraction_point hall htd, hpos, Nat.add_comm 1]

theorem exponent_append (hs : s ∈ (optional exponent).matches')
    (ht : Text.Stops isNumberChar t) : Rule.exponent (s ++ t) = s.length := by
  rw [mem_optional] at hs
  rcases hs with rfl | hs
  · rw [List.nil_append]
    unfold Rule.exponent
    split
    · simp [isNumberChar] at ht
    · rfl
  · obtain ⟨front, hfront, power, hpower, rfl⟩ := Language.mem_mul.1 hs
    obtain ⟨mark, hmark, sgn, hsgn, rfl⟩ := Language.mem_mul.1 hfront
    obtain rfl : mark = ['e'] := hmark
    obtain ⟨hne, hall⟩ := mem_digits.1 hpower
    have hstop : Text.Stops (fun c => c == '+' || c == '-') (power ++ t) := by
      cases power with
      | nil => exact absurd rfl hne
      | cons c power =>
        have hc := hall c (by simp)
        rw [List.cons_append, Text.stops_cons]
        by_contra hsign
        simp only [Bool.not_eq_false, Bool.or_eq_true, beq_iff_eq] at hsign
        rcases hsign with rfl | rfl <;> simp at hc
    have htd : Text.Stops Char.isDigit t :=
      ht.mono (by simp +contextual [isNumberChar, isMagnitudeChar])
    have hpos : 0 < power.length := List.length_pos_iff.2 hne
    simp [Rule.exponent, signs_append hsgn hstop, digits_append hall htd, hpos]
    omega

theorem exists_head_of_mem_magnitude (hs : s ∈ magnitude.matches') :
    ∃ c u, s = c :: u ∧ isMagnitudeChar c = true := by
  rw [magnitude, matches'_add, Language.mem_add] at hs
  rcases hs with hs | hs
  · obtain ⟨whole, hwhole, frac, -, rfl⟩ := Language.mem_mul.1 hs
    obtain ⟨hne, hall⟩ := mem_digits.1 hwhole
    cases whole with
    | nil => exact absurd rfl hne
    | cons c whole => exact ⟨c, whole ++ frac, rfl, by simp [isMagnitudeChar, hall c]⟩
  · obtain ⟨point, hpoint, frac, -, rfl⟩ := Language.mem_mul.1 hs
    obtain rfl : point = ['.'] := hpoint
    exact ⟨'.', frac, rfl, rfl⟩

theorem stops_of_mem_exponent (hs : s ∈ (optional exponent).matches')
    (ht : Text.Stops isNumberChar t) : Text.Stops isMagnitudeChar (s ++ t) := by
  rw [mem_optional] at hs
  rcases hs with rfl | hs
  · exact ht.mono (by simp +contextual [isNumberChar])
  · obtain ⟨front, hfront, power, -, rfl⟩ := Language.mem_mul.1 hs
    obtain ⟨mark, hmark, sgn, -, rfl⟩ := Language.mem_mul.1 hfront
    obtain rfl : mark = ['e'] := hmark
    simp [isMagnitudeChar]

/-- The rule takes every number of the language as a whole. -/
theorem number_append_of_mem (hs : s ∈ pattern.matches') (ht : Text.Stops isNumberChar t) :
    Rule.number (s ++ t) = some s.length := by
  obtain ⟨front, hfront, power, hpower, rfl⟩ := Language.mem_mul.1 hs
  obtain ⟨sgn, hsgn, size, hsize, rfl⟩ := Language.mem_mul.1 hfront
  have hstop : Text.Stops (fun c => c == '+' || c == '-') (size ++ (power ++ t)) := by
    obtain ⟨c, u, rfl, hc⟩ := exists_head_of_mem_magnitude hsize
    rw [List.cons_append, Text.stops_cons]
    by_contra hsign
    simp only [Bool.not_eq_false, Bool.or_eq_true, beq_iff_eq] at hsign
    rcases hsign with rfl | rfl <;> simp [isMagnitudeChar] at hc
  have hmag := magnitude_append hsize (stops_of_mem_exponent hpower ht)
  have hexp := exponent_append hpower ht
  have hdrop : (sgn ++ (size ++ (power ++ t))).drop (sgn.length + size.length) = power ++ t := by
    rw [← List.append_assoc, ← List.length_append, List.drop_left]
  rw [List.append_assoc, List.append_assoc]
  simp only [Rule.number, signs_append hsgn hstop, List.drop_left, hmag, Option.map_some, hdrop,
    hexp, List.length_append]

/-! ### The rule does not leave the text -/

theorem signs_le_length (s : Text) : Rule.signs s ≤ s.length := by
  unfold Rule.signs
  split <;> simp

theorem digits_le_length (s : Text) : Rule.digits s ≤ s.length := Text.length_takeWhile_le

theorem fraction_le_length (s : Text) : Rule.fraction s ≤ s.length := by
  unfold Rule.fraction
  split
  · next u => simpa [Nat.add_comm 1] using digits_le_length u
  · omega

theorem magnitude_le_length {n : ℕ} (h : Rule.magnitude s = some n) : n ≤ s.length := by
  have hwhole := digits_le_length s
  have hfrac := fraction_le_length (s.drop (Rule.digits s))
  have hpoint := fraction_le_length s
  unfold Rule.magnitude at h
  dsimp only at h
  rw [List.length_drop] at hfrac
  split_ifs at h <;> cases h <;> omega

theorem exponent_le_length (s : Text) : Rule.exponent s ≤ s.length := by
  unfold Rule.exponent
  split
  · next u =>
    have hsign := signs_le_length u
    have hpower := digits_le_length (u.drop (Rule.signs u))
    rw [List.length_drop] at hpower
    dsimp only
    rw [List.length_cons]
    split_ifs <;> omega
  · omega

theorem number_le_length {n : ℕ} (h : Rule.number s = some n) : n ≤ s.length := by
  obtain ⟨m, hm, rfl⟩ := Option.map_eq_some_iff.1 h
  have hsign := signs_le_length s
  have hmag := magnitude_le_length hm
  have hexp := exponent_le_length (s.drop (Rule.signs s + m))
  rw [List.length_drop] at hmag hexp
  omega

/-! ### Numbers and names -/

/-- The characters that an expression mentions. -/
def letters : RegularExpression Char → List Char
  | .zero => []
  | .epsilon => []
  | .char c => [c]
  | .plus P Q => letters P ++ letters Q
  | .comp P Q => letters P ++ letters Q
  | .star P => letters P

theorem mem_letters_of_mem {P : RegularExpression Char} (hs : s ∈ P.matches') :
    ∀ c ∈ s, c ∈ letters P := by
  induction P generalizing s with
  | zero => exact absurd hs (Language.notMem_zero s)
  | epsilon =>
    obtain rfl : s = [] := hs
    simp
  | char a =>
    obtain rfl : s = [a] := hs
    simp [letters]
  | plus P Q ihP ihQ =>
    intro c hc
    rcases (Language.mem_add _ _ _).1 hs with hs | hs
    · exact List.mem_append_left _ (ihP hs c hc)
    · exact List.mem_append_right _ (ihQ hs c hc)
  | comp P Q ihP ihQ =>
    obtain ⟨x, hx, y, hy, rfl⟩ := Language.mem_mul.1 hs
    intro c hc
    rcases List.mem_append.1 hc with hc | hc
    · exact List.mem_append_left _ (ihP hx c hc)
    · exact List.mem_append_right _ (ihQ hy c hc)
  | star P ih =>
    obtain ⟨parts, rfl, hparts⟩ := Language.mem_kstar.1 hs
    intro c hc
    obtain ⟨part, hpart, hmem⟩ := List.mem_flatten.1 hc
    exact ih (hparts part hpart) c hmem

theorem isNameChar_of_mem_letters : ∀ c ∈ letters pattern, isNameChar c = true := by
  have hall : (letters pattern).all isNameChar = true := by decide
  exact List.all_eq_true.1 hall

theorem isNameChar_of_isNumberChar {c : Char} (h : isNumberChar c = true) :
    isNameChar c = true := by
  have hname : "0123456789.+-e".toList.all isNameChar = true := by decide
  have hmem : c ∈ "0123456789.+-e".toList := by
    simp only [isNumberChar, isMagnitudeChar, Bool.or_eq_true, beq_iff_eq] at h
    rcases h with (((h | rfl) | rfl) | rfl) | rfl
    · exact List.mem_append_left ".+-e".toList (mem_digitChars.2 h)
    all_goals decide
  exact List.all_eq_true.1 hname c hmem

/-- A number at the front of a text is part of the name-like run there. -/
theorem number_le_run {n : ℕ} (h : Rule.number s = some n) :
    n ≤ (s.takeWhile isNameChar).length := by
  have hall : ∀ c ∈ s.take n, isNameChar c = true := by
    intro c hc
    apply isNameChar_of_mem_letters
    exact mem_letters_of_mem (take_number_mem h) c hc
  have hrun : s.takeWhile isNameChar = s.take n ++ (s.drop n).takeWhile isNameChar := by
    rw [← List.takeWhile_append_of_pos hall, List.take_append_drop]
  rw [hrun, List.length_append, List.length_take_of_le (number_le_length h)]
  exact Nat.le_add_right _ _

/-- The rule takes the whole run exactly if the run is a number of the language. -/
theorem number_eq_run_iff :
    Rule.number s = some (s.takeWhile isNameChar).length ↔
      s.takeWhile isNameChar ∈ pattern.matches' := by
  constructor
  · intro h
    simpa [Text.take_length_takeWhile] using take_number_mem h
  · intro h
    have hstop : Text.Stops isNumberChar (s.dropWhile isNameChar) := by
      apply Text.stops_dropWhile.mono
      intro c hc
      exact isNameChar_of_isNumberChar hc
    simpa using number_append_of_mem h hstop

end Token.Number

end DesignRecipe
