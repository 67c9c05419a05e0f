import DesignRecipe.Proofs.Token.Extent

/-!
# The stream of tokens

The tokens of a text in order: the nearest one, then those of the text behind it. What is
skipped between tokens carries no meaning, and tokens and gaps together are the text.
-/
namespace DesignRecipe

/-- A token with its text, and the text that is skipped to reach it. -/
structure Lexeme where
  gap : Text
  kind : Token.Kind
  text : Text

/-- What a reader of forms sees of a token: all brackets of one direction are the same. -/
inductive Mark where
  | opener
  | closer
  | atom (kind : AtomKind) (text : Text)
  deriving DecidableEq

namespace Lexeme

def ofToken (code : Text) (t : Token) : Lexeme :=
  ⟨code.take t.span.index, t.kind, t.span.text code⟩

def whole (x : Lexeme) : Text := x.gap ++ x.text

def mark (x : Lexeme) : Mark :=
  match x.kind with
  | .opener => .opener
  | .closer => .closer
  | .atom kind => .atom kind x.text

theorem whole_ofToken (code : Text) (t : Token) :
    (ofToken code t).whole ++ code.drop t.span.stop = code := by
  simp [whole, ofToken, Span.text, Span.stop, ← List.drop_drop]

theorem drop_stop_eq {code rest : Text} {t : Token} {xs : List Lexeme}
    (h : code = (ofToken code t :: xs).flatMap whole ++ rest) :
    code.drop t.span.stop = xs.flatMap whole ++ rest := by
  rw [List.flatMap_cons, List.append_assoc] at h
  exact List.append_cancel_left ((whole_ofToken code t).trans h)

end Lexeme

namespace Token

/-- The reserved characters that may be skipped: those without a role of their own, and those
that open something that may be missing. -/
def fillerMarks : List Char := ['\x7b', '\x7d', '|', ',', '\x60', '"', '\'', '#']

/-- White space or a filler mark. -/
def isFiller (c : Char) : Bool := Text.isBlank c || fillerMarks.contains c

/-- Whatever is neither a bracket nor part of a name may be skipped, and nothing else. -/
theorem isFiller_iff {c : Char} :
    isFiller c = true ↔ isNameChar c = false ∧ isOpener c = false ∧ isCloser c = false := by
  constructor
  · intro h
    have hmarks : fillerMarks.all (fun d => !isNameChar d && !isOpener d && !isCloser d) = true := by
      decide
    rcases Bool.or_eq_true_iff.1 h with hblank | hmark
    · refine ⟨by simp [isNameChar, hblank], ?_, ?_⟩
      · by_contra hopener
        rcases opener_iff.1 (by simpa using hopener) with rfl | rfl <;> revert hblank <;> decide
      · by_contra hcloser
        rcases closer_iff.1 (by simpa using hcloser) with rfl | rfl <;> revert hblank <;> decide
    · have hnone := List.all_eq_true.1 hmarks c (List.contains_iff_mem.1 hmark)
      simpa [and_assoc] using hnone
  · rintro ⟨hname, hopener, hcloser⟩
    by_contra hfiller
    simp_all [isFiller, fillerMarks, isNameChar, isReserved, isOpener, isCloser]

def stream (code : Text) : List Lexeme :=
  match _h : nearest? code with
  | none => []
  | some t => .ofToken code t :: stream (code.drop t.span.stop)
termination_by code.length
decreasing_by exact length_drop_stop_lt ‹nearest? code = some t›

variable {code : Text} {t : Token}

theorem stream_of_none (h : nearest? code = none) : stream code = [] := by
  rw [stream]
  split
  · rfl
  · next t ht => simp [h] at ht

@[simp] theorem stream_nil : stream [] = [] := stream_of_none rfl

theorem stream_of_nearest? (h : nearest? code = some t) :
    stream code = .ofToken code t :: stream (code.drop t.span.stop) := by
  rw [stream]
  split
  · next hnone => simp [h] at hnone
  · next u hu =>
    obtain rfl : t = u := Option.some.inj (h.symm.trans hu)
    rfl

/-! ### What is skipped -/

theorem isFiller_of_front?_eq_none {fresh : Bool} {c : Char} {s : Text}
    (h : front? fresh (c :: s) = none) : isFiller c = true := by
  have hnone := front?_eq_none_iff.1 h
  rw [isFiller_iff]
  refine ⟨?_, ?_, ?_⟩
  · by_contra hname
    obtain ⟨kind, n, hbegins⟩ := exists_begins_of_isNameChar (by simpa using hname)
    exact hnone kind n hbegins
  · by_contra hopener
    exact hnone _ _ (.opener (by simpa using hopener))
  · by_contra hcloser
    exact hnone _ _ (.closer (by simpa using hcloser))

theorem isFiller_of_scan_eq_none {fresh : Bool} (h : scan fresh code = none) :
    ∀ c ∈ code, isFiller c = true := by
  induction code generalizing fresh with
  | nil => simp
  | cons c s ih =>
    rw [scan] at h
    split at h
    · cases h
    · next hfront =>
      intro d hd
      rcases List.mem_cons.1 hd with rfl | hd
      · exact isFiller_of_front?_eq_none hfront
      · exact ih (Option.map_eq_none_iff.1 h) d hd

/-- The walk skips fillers only and stops where its token begins. -/
theorem exists_begins_of_scan {fresh : Bool} (h : scan fresh code = some t) :
    ∃ gap s, code = gap ++ s ∧ t.span.index = gap.length ∧ (∀ c ∈ gap, isFiller c = true) ∧
      ∃ b, Begins b s t.kind t.span.length := by
  induction code generalizing fresh t with
  | nil => cases h
  | cons c s ih =>
    rw [scan] at h
    split at h
    · next kind n hfront =>
      cases h
      exact ⟨[], c :: s, rfl, rfl, by simp, fresh, begins_of_front? hfront⟩
    · next hfront =>
      obtain ⟨u, hu, rfl⟩ := Option.map_eq_some_iff.1 h
      obtain ⟨gap, r, rfl, hindex, hgap, b, hbegins⟩ := ih hu
      refine ⟨c :: gap, r, rfl, ?_, ?_, b, hbegins⟩
      · simp [shift, Span.shift, hindex]
      · intro d hd
        rcases List.mem_cons.1 hd with rfl | hd
        · exact isFiller_of_front?_eq_none hfront
        · exact hgap d hd

theorem exists_begins_of_nearest? (h : nearest? code = some t) :
    ∃ gap s, code = gap ++ s ∧ t.span.index = gap.length ∧ (∀ c ∈ gap, isFiller c = true) ∧
      ∃ b, Begins b s t.kind t.span.length := by
  rw [nearest?_eq_race_from, race_eq_scan] at h
  exact exists_begins_of_scan h

theorem isFiller_of_nearest?_eq_none (h : nearest? code = none) :
    ∀ c ∈ code, isFiller c = true := by
  rw [nearest?_eq_race_from, race_eq_scan] at h
  exact isFiller_of_scan_eq_none h

/-! ### Tokens at the front and behind a blank -/

theorem nearest?_of_begins {s : Text} {kind : Kind} {n : Nat} (h : Begins true s kind n) :
    nearest? s = some ⟨kind, ⟨0, n⟩⟩ := by
  rw [nearest?_eq_race_from]
  cases s with
  | nil => cases h
  | cons c s => rw [race_cons, front?_of_begins h]

theorem stream_of_begins {s : Text} {kind : Kind} {n : Nat} (h : Begins true s kind n) :
    stream s = ⟨[], kind, s.take n⟩ :: stream (s.drop n) := by
  rw [stream_of_nearest? (nearest?_of_begins h)]
  simp [Lexeme.ofToken, Span.text, Span.stop]

theorem not_isBlank_of_begins {fresh : Bool} {c : Char} {s : Text} {kind : Kind} {n : Nat}
    (h : Begins fresh (c :: s) kind n) : Text.isBlank c = false := by
  cases h with
  | opener hopener => rcases opener_iff.1 hopener with rfl | rfl <;> decide
  | closer hcloser => rcases closer_iff.1 hcloser with rfl | rfl <;> decide
  | name hname => exact (isNameChar_iff.1 hname).2
  | _ => decide

section skip

variable {c : Char} {s : Text}

/-- Where no token begins, and no mark of a block comment stands, the race is that of the text
behind. -/
theorem nearest?_skip (hfront : front? true (c :: s) = none)
    (hmark : opensComment (c :: s) = false) : nearest? (c :: s) = (nearest? s).map shift := by
  rw [nearest?_eq_race_from, nearest?_eq_race_from, race_cons, hfront, hmark]
  rfl

theorem map_mark_stream_skip (hfront : front? true (c :: s) = none)
    (hmark : opensComment (c :: s) = false) :
    (stream (c :: s)).map Lexeme.mark = (stream s).map Lexeme.mark := by
  have hnearest := nearest?_skip hfront hmark
  cases ht : nearest? s with
  | none =>
    rw [ht] at hnearest
    rw [stream_of_none ht, stream_of_none hnearest]
  | some t =>
    rw [ht] at hnearest
    have hdrop : (c :: s).drop t.shift.span.stop = s.drop t.span.stop := by simp [shift]
    rw [stream_of_nearest? ht, stream_of_nearest? hnearest, hdrop]
    rfl

theorem front?_of_isBlank (hc : Text.isBlank c = true) (fresh : Bool) (s : Text) :
    front? fresh (c :: s) = none := by
  rw [front?_eq_none_iff]
  intro kind n hbegins
  rw [not_isBlank_of_begins hbegins] at hc
  cases hc

theorem opensComment_of_isBlank (hc : Text.isBlank c = true) (s : Text) :
    opensComment (c :: s) = false := by
  rw [← Bool.not_eq_true, opensComment_cons_iff]
  rintro ⟨rfl, -⟩
  revert hc
  decide

/-- A blank in front is nothing to a reader. -/
theorem map_mark_stream_blank (hc : Text.isBlank c = true) (s : Text) :
    (stream (c :: s)).map Lexeme.mark = (stream s).map Lexeme.mark :=
  map_mark_stream_skip (front?_of_isBlank hc true s) (opensComment_of_isBlank hc s)

end skip

end Token

/-! ### What is read -/

open Token

/-- What holds of every token of a stream: it is reached over fillers, and its text is a token
of its kind when it stands alone. -/
structure Lexeme.Sound (x : Lexeme) : Prop where
  gap : ∀ c ∈ x.gap, isFiller c = true
  text : Begins true x.text x.kind x.text.length

/-- A token that was found is reached over fillers and begins where its text stands. -/
theorem Lexeme.exists_begins_ofToken {code : Text} {t : Token} (h : nearest? code = some t) :
    t.span.index = (ofToken code t).gap.length ∧ (∀ c ∈ (ofToken code t).gap, isFiller c = true) ∧
      ∃ fresh, Begins fresh ((ofToken code t).text ++ code.drop t.span.stop) t.kind
        (ofToken code t).text.length := by
  obtain ⟨gap, s, rfl, hindex, hgap, fresh, hbegins⟩ := exists_begins_of_nearest? h
  have htext : (ofToken (gap ++ s) t).text = s.take t.span.length := by
    simp [ofToken, Span.text, hindex]
  have hbehind : (gap ++ s).drop t.span.stop = s.drop t.span.length := by
    rw [Span.stop, hindex, ← List.drop_drop, List.drop_left]
  refine ⟨by simp [ofToken, hindex], by simpa [ofToken, hindex] using hgap, fresh, ?_⟩
  rw [htext, hbehind, List.take_append_drop, List.length_take_of_le hbegins.take.1]
  exact hbegins

theorem Lexeme.sound_ofToken {code : Text} {t : Token} (h : nearest? code = some t) :
    (ofToken code t).Sound := by
  obtain ⟨-, hgap, fresh, hbegins⟩ := exists_begins_ofToken h
  have halone := hbegins.take.2
  rw [List.take_left] at halone
  exact ⟨hgap, halone⟩

theorem sound_of_mem_stream {code : Text} {x : Lexeme} (h : x ∈ stream code) : x.Sound := by
  fun_induction stream code with
  | case1 => simp at h
  | case2 code t ht ih =>
    rcases List.mem_cons.1 h with rfl | h
    · exact Lexeme.sound_ofToken ht
    · exact ih h

/-- What is left when no token is found. -/
theorem isFiller_of_stream_eq_nil {code : Text} (h : stream code = []) :
    ∀ c ∈ code, isFiller c = true := by
  cases ht : nearest? code with
  | none => exact isFiller_of_nearest?_eq_none ht
  | some t => simp [stream_of_nearest? ht] at h

end DesignRecipe
