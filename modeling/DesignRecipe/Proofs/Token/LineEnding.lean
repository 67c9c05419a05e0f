import DesignRecipe.Proofs.Text.LineEnding
import DesignRecipe.Proofs.Token.Stream

/-!
# Tokens and line ends

Unified line ends leave the tokens of a text as they are. Line ends separate tokens and end line
comments no matter how they are written, and only strings and block comments have line ends in them,
which are unified there.
-/
namespace DesignRecipe

open Text

/-- Whether atoms of the kind may have line ends in them. -/
def AtomKind.spansLines : AtomKind → Bool
  | .string | .blockComment => true
  | .lineComment | .number | .symbol | .identifier => false

/-- Changes the text of an atom, if it may have line ends in it. -/
def AtomKind.mapText (change : Text → Text) (kind : AtomKind) (text : Text) : Text :=
  if kind.spansLines then change text else text

def Mark.mapText (change : Text → Text) : Mark → Mark
  | .atom kind text => .atom kind (kind.mapText change text)
  | .opener => .opener
  | .closer => .closer

namespace Text

variable {c : Char} {s : Text} {n : Nat}

/-- The length of the first `n` characters with unified line ends. -/
def unifiedLength (s : Text) (n : Nat) : Nat := (unifyLineEnds (s.take n)).length

theorem unifiedLength_zero (s : Text) : unifiedLength s 0 = 0 := rfl

theorem unifiedLength_cons (hc : c ≠ '\r') (s : Text) (n : Nat) :
    unifiedLength (c :: s) (n + 1) = unifiedLength s n + 1 := by
  rw [unifiedLength, List.take_succ_cons, unifyLineEnds_cons hc]
  rfl

theorem unifiedLength_pair (hn : 0 < n) (s : Text) :
    unifiedLength ('\r' :: '\n' :: s) (n + 1) = unifiedLength ('\n' :: s) n := by
  obtain ⟨k, rfl⟩ := Nat.exists_eq_succ_of_ne_zero hn.ne'
  rw [unifiedLength, List.take_succ_cons, List.take_succ_cons, unifyLineEnds_pair]
  rfl

theorem unifiedLength_lone (hs : s.head? ≠ some '\n') (n : Nat) :
    unifiedLength ('\r' :: s) (n + 1) = unifiedLength s n + 1 := by
  have hfront : (s.take n).head? ≠ some '\n' := by
    rw [List.head?_take]
    split_ifs
    · nofun
    · exact hs
  rw [unifiedLength, List.take_succ_cons, unifyLineEnds_return hfront]
  rfl

end Text

namespace Token

variable {c : Char} {s : Text} {n : Nat}

/-! ### Strings and block comments -/

/-- Lengths are counted on in the same way on both sides. -/
theorem map_add_map {found : Option Nat} {f g : Nat → Nat} {k m : Nat}
    (h : ∀ n, found = some n → g (n + k) = f n + m) :
    (found.map f).map (· + m) = (found.map (· + k)).map g := by
  cases found with
  | none => rfl
  | some n => exact congrArg some (h n rfl).symm

theorem closingQuote_cons_of_ne (hquote : c ≠ '"') (hslash : c ≠ '\\') (escaped : Bool)
    (s : Text) : closingQuote escaped (c :: s) = (closingQuote false s).map (· + 1) := by
  have hnot : (c == '\\') = false := by simpa using hslash
  cases escaped <;> simp [closingQuote, hquote, hnot]

theorem closingQuote_unifyLineEnds (escaped : Bool) (s : Text) :
    closingQuote escaped (unifyLineEnds s) =
      (closingQuote escaped s).map (unifiedLength s) := by
  induction s using lineEnd_induction generalizing escaped with
  | nil => rfl
  | cons c s hc ih =>
    have hbehind (escaped : Bool) : (closingQuote escaped (unifyLineEnds s)).map (· + 1) =
        ((closingQuote escaped s).map (· + 1)).map (unifiedLength (c :: s)) := by
      rw [ih]
      exact map_add_map fun n _ => unifiedLength_cons hc s n
    rw [unifyLineEnds_cons hc, closingQuote, closingQuote]
    split_ifs
    · exact hbehind false
    · rw [Option.map_some, unifiedLength_cons hc, unifiedLength_zero]
    · exact hbehind _
  | pair s ih =>
    -- a backslash takes one of both along, and the other one means nothing
    have hsame : closingQuote escaped ('\n' :: s) = closingQuote false ('\n' :: s) := by
      rw [closingQuote_cons_of_ne (by decide) (by decide),
        closingQuote_cons_of_ne (by decide) (by decide)]
    rw [unifyLineEnds_pair, ih, hsame,
      closingQuote_cons_of_ne (c := '\r') (by decide) (by decide) escaped]
    cases hclose : closingQuote false ('\n' :: s) with
    | none => rfl
    | some n =>
      rw [closingQuote_cons_of_ne (by decide) (by decide)] at hclose
      obtain ⟨k, -, rfl⟩ := Option.map_eq_some_iff.1 hclose
      exact congrArg some (unifiedLength_pair (Nat.succ_pos k) s).symm
  | lone s hs ih =>
    rw [unifyLineEnds_return hs, closingQuote_cons_of_ne (by decide) (by decide),
      closingQuote_cons_of_ne (by decide) (by decide), ih]
    exact map_add_map fun n _ => unifiedLength_lone hs n

theorem getLast?_take_of_closingQuote {escaped : Bool} (h : closingQuote escaped s = some n) :
    (s.take n).getLast? = some '"' := by
  induction s generalizing escaped n with
  | nil => cases h
  | cons c s ih =>
    have hlater {m : Nat} {escaped : Bool} (hm : closingQuote escaped s = some m) :
        ((c :: s).take (m + 1)).getLast? = some '"' := by
      rw [List.take_succ_cons, List.getLast?_cons, ih hm]
      rfl
    rw [closingQuote] at h
    split_ifs at h with _ hquote
    · obtain ⟨m, hm, rfl⟩ := Option.map_eq_some_iff.1 h
      exact hlater hm
    · cases h
      rw [hquote]
      rfl
    · obtain ⟨m, hm, rfl⟩ := Option.map_eq_some_iff.1 h
      exact hlater hm

theorem closeComments_unifyLineEnds (depth : Nat) (s : Text) :
    Rule.closeComments depth (unifyLineEnds s) =
      (Rule.closeComments depth s).map (unifiedLength s) := by
  have hmark {c d : Char} (hc : c ≠ '\r') (hd : d ≠ '\r') (s : Text) (n : Nat) :
      unifiedLength (c :: d :: s) (n + 2) = unifiedLength s n + 2 := by
    rw [unifiedLength_cons hc, unifiedLength_cons hd]
  fun_induction Rule.closeComments depth s with
  | case1 depth => rfl
  | case2 depth s ih =>
    rw [unifyLineEnds_cons (by decide), unifyLineEnds_cons (by decide), Rule.closeComments, ih]
    exact map_add_map fun n _ => hmark (by decide) (by decide) s n
  | case3 s =>
    rw [unifyLineEnds_cons (by decide), unifyLineEnds_cons (by decide), Rule.closeComments]
    rfl
  | case4 depth s ih =>
    rw [unifyLineEnds_cons (by decide), unifyLineEnds_cons (by decide), Rule.closeComments, ih]
    exact map_add_map fun n _ => hmark (by decide) (by decide) s n
  | case5 depth c s hopen hclose hinner ih =>
    have hopen' : ¬(c = '#' ∧ s.head? = some '|') := by
      rintro ⟨rfl, hs⟩
      obtain ⟨t, rfl⟩ := List.head?_eq_some_iff.1 hs
      exact hopen t rfl rfl
    have hclose' : ¬(c = '|' ∧ s.head? = some '#') := by
      rintro ⟨rfl, hs⟩
      obtain ⟨t, rfl⟩ := List.head?_eq_some_iff.1 hs
      cases depth with
      | zero => exact hclose t rfl rfl rfl
      | succ depth => exact hinner depth t rfl rfl rfl
    by_cases hc : c = '\r'
    · subst hc
      by_cases hs : s.head? = some '\n'
      · obtain ⟨t, rfl⟩ := List.head?_eq_some_iff.1 hs
        rw [unifyLineEnds_pair, ih]
        cases hfound : Rule.closeComments depth ('\n' :: t) with
        | none => rfl
        | some n => exact congrArg some (unifiedLength_pair (closeComments_pos hfound) t).symm
      · rw [unifyLineEnds_return hs, closeComments_cons depth (by simp) (by simp), ih]
        exact map_add_map fun n _ => unifiedLength_lone hs n
    · have hfront {d : Char} (hd : d ≠ '\n') : (unifyLineEnds s).head? = some d →
          s.head? = some d := head?_of_unifyLineEnds hd
      rw [unifyLineEnds_cons hc, closeComments_cons, ih]
      · exact map_add_map fun n _ => unifiedLength_cons hc s n
      · rintro ⟨hopen, hs⟩
        exact hopen' ⟨hopen, hfront (by decide) hs⟩
      · rintro ⟨hclose, hs⟩
        exact hclose' ⟨hclose, hfront (by decide) hs⟩

theorem getLast?_take_of_closeComments {depth : Nat}
    (h : Rule.closeComments depth s = some n) : (s.take n).getLast? = some '#' := by
  fun_induction Rule.closeComments depth s generalizing n with
  | case1 => cases h
  | case2 depth s ih =>
    obtain ⟨m, hm, rfl⟩ := Option.map_eq_some_iff.1 h
    simp [List.getLast?_cons, ih hm]
  | case3 s =>
    cases h
    rfl
  | case4 depth s ih =>
    obtain ⟨m, hm, rfl⟩ := Option.map_eq_some_iff.1 h
    simp [List.getLast?_cons, ih hm]
  | case5 depth c s _ _ _ ih =>
    obtain ⟨m, hm, rfl⟩ := Option.map_eq_some_iff.1 h
    simp [List.getLast?_cons, ih hm]

theorem getLast?_take_of_blockComment (h : Rule.blockComment s = some n) :
    (s.take n).getLast? = some '#' := by
  unfold Rule.blockComment at h
  split at h
  · obtain ⟨m, hm, rfl⟩ := Option.map_eq_some_iff.1 h
    simp [List.getLast?_cons, getLast?_take_of_closeComments hm]
  · cases h

/-! ### The front of a text -/

theorem takeWhile_isNameChar_unifyLineEnds (s : Text) :
    (unifyLineEnds s).takeWhile isNameChar = s.takeWhile isNameChar :=
  takeWhile_unifyLineEnds (by decide) (by decide) s

theorem takeWhile_line_unifyLineEnds (s : Text) :
    (unifyLineEnds s).takeWhile (!isLineEnd ·) = s.takeWhile (!isLineEnd ·) :=
  takeWhile_unifyLineEnds (by decide) (by decide) s

theorem not_mem_takeWhile_of_eq_false {p : Char → Bool} (h : p c = false) :
    c ∉ s.takeWhile p := by
  intro hmem
  rw [List.mem_takeWhile_imp hmem] at h
  cases h

/-- A run inside of a line is as long as before. -/
theorem unifiedLength_takeWhile {p : Char → Bool} (hreturn : p '\r' = false) (s : Text) :
    unifiedLength s (s.takeWhile p).length = (s.takeWhile p).length := by
  rw [unifiedLength, take_length_takeWhile, unifyLineEnds_of_not_mem]
  exact not_mem_takeWhile_of_eq_false hreturn

theorem blockComment_unifyLineEnds (s : Text) :
    Rule.blockComment ('#' :: unifyLineEnds s) =
      (Rule.blockComment ('#' :: s)).map (unifiedLength ('#' :: s)) := by
  by_cases hs : s.head? = some '|'
  · obtain ⟨t, rfl⟩ := List.head?_eq_some_iff.1 hs
    rw [unifyLineEnds_cons (by decide), Rule.blockComment, Rule.blockComment,
      closeComments_unifyLineEnds]
    apply map_add_map
    intro n _
    rw [unifiedLength_cons (by decide), unifiedLength_cons (by decide)]
  · have hnot (t : Text) (ht : t.head? ≠ some '|') : Rule.blockComment ('#' :: t) = none := by
      unfold Rule.blockComment
      split
      · next u hu =>
        cases hu
        exact absurd rfl ht
      · rfl
    have hnot' : (unifyLineEnds s).head? ≠ some '|' := mt (head?_of_unifyLineEnds (by decide)) hs
    rw [hnot _ hs, hnot _ hnot']
    rfl

/-- The token at the front stays, and so does how much of it is there. -/
theorem front?_unifyLineEnds (fresh : Bool) (s : Text) :
    front? fresh (unifyLineEnds s) =
      (front? fresh s).map fun found => (found.1, unifiedLength s found.2) := by
  cases s with
  | nil => rfl
  | cons c s =>
    by_cases hc : c = '\r'
    · subst hc
      obtain ⟨t, ht⟩ := exists_unifyLineEnds_return s
      rw [ht, front?_of_isBlank (by decide), front?_of_isBlank (by decide)]
      rfl
    · have hname := takeWhile_isNameChar_unifyLineEnds (c :: s)
      have hone : unifiedLength (c :: s) 1 = 1 := by
        rw [unifiedLength_cons hc, unifiedLength_zero]
      rw [unifyLineEnds_cons hc] at hname ⊢
      rw [front?, front?, hname, takeWhile_isNameChar_unifyLineEnds, takeWhile_line_unifyLineEnds,
        closingQuote_unifyLineEnds]
      split_ifs with hopener hcloser hline hquote hsymbol hempty hmark hfresh hrun
      · simp only [Option.map_some, hone]
      · simp only [Option.map_some, hone]
      · simp only [Option.map_some, Nat.add_comm 1, unifiedLength_cons hc,
          unifiedLength_takeWhile (p := (!isLineEnd ·)) (by decide)]
      · rw [Option.map_map, Option.map_map]
        apply Option.map_congr
        intro n _
        exact congrArg _ (unifiedLength_cons hc s n).symm
      · rfl
      · simp only [Option.map_some, unifiedLength_cons hc,
          unifiedLength_takeWhile (p := isNameChar) (by decide)]
      · rw [hmark, commentLength?_eq, commentLength?_eq, blockComment_unifyLineEnds,
          Option.map_map, Option.map_map]
        rfl
      · rfl
      · simp only [Option.map_some, unifiedLength_takeWhile (p := isNameChar) (by decide)]
      · rfl

/-! ### Where tokens end -/

variable {fresh : Bool} {kind : Kind}

/-- Only strings and block comments may have line ends in them. -/
theorem Begins.not_mem_return (h : Begins fresh s kind n)
    (hkind : ∀ atom, kind = .atom atom → atom.spansLines = false) : '\r' ∉ s.take n := by
  cases h with
  | opener hopener => rcases opener_iff.1 hopener with rfl | rfl <;> simp
  | closer hcloser => rcases closer_iff.1 hcloser with rfl | rfl <;> simp
  | @lineComment s =>
    have hline : '\r' ∉ s.takeWhile (!isLineEnd ·) := not_mem_takeWhile_of_eq_false (by decide)
    rw [Nat.add_comm, List.take_succ_cons, take_length_takeWhile]
    simpa using hline
  | string => cases hkind _ rfl
  | @symbol s =>
    have hrun : '\r' ∉ s.takeWhile isNameChar := not_mem_takeWhile_of_eq_false (by decide)
    rw [List.take_succ_cons, take_length_takeWhile]
    simpa using hrun
  | blockComment => cases hkind _ rfl
  | name =>
    rw [take_length_takeWhile]
    exact not_mem_takeWhile_of_eq_false (by decide)

/-- No token ends between a carriage return and the line feed behind it. -/
theorem Begins.getLast?_ne_return (h : Begins fresh s kind n) :
    (s.take n).getLast? ≠ some '\r' := by
  have hlast (hkind : ∀ atom, kind = .atom atom → atom.spansLines = false) :
      (s.take n).getLast? ≠ some '\r' := by
    intro hlast
    exact h.not_mem_return hkind (List.mem_of_getLast? hlast)
  cases h with
  | opener => exact hlast nofun
  | closer => exact hlast nofun
  | lineComment =>
    apply hlast
    rintro atom ⟨⟩
    rfl
  | string hclose =>
    rw [List.take_succ_cons, List.getLast?_cons, getLast?_take_of_closingQuote hclose]
    decide
  | symbol =>
    apply hlast
    rintro atom ⟨⟩
    rfl
  | blockComment _ hclose =>
    rw [getLast?_take_of_blockComment hclose]
    decide
  | name =>
    apply hlast
    rintro atom ⟨⟩
    unfold nameKind
    split_ifs <;> rfl

theorem Begins.unifyLineEnds_eq (h : Begins fresh s kind n) :
    unifyLineEnds s = unifyLineEnds (s.take n) ++ unifyLineEnds (s.drop n) := by
  have happend := unifyLineEnds_append (a := s.take n) (b := s.drop n)
    fun hlast => absurd hlast h.getLast?_ne_return
  rwa [List.take_append_drop] at happend

theorem Spelled.not_mem_return {kind : AtomKind} (h : Spelled kind s)
    (hkind : kind.spansLines = false) : '\r' ∉ s := by
  have hbegins := begins_of_front? h
  have hnot := hbegins.not_mem_return (by rintro atom ⟨⟩; exact hkind)
  rwa [List.take_length] at hnot

/-- Alone or not, an atom is written as before but for the line ends in it. -/
theorem Spelled.unifyLineEnds_eq {kind : AtomKind} (h : Spelled kind s) :
    unifyLineEnds s = kind.mapText unifyLineEnds s := by
  unfold AtomKind.mapText
  split_ifs with hkind
  · rfl
  · exact unifyLineEnds_of_not_mem (h.not_mem_return (by simpa using hkind))

/-! ### The race and the stream -/

/-- Both texts have the same token next, with unified line ends, and behind it the same text, with
unified line ends. -/
structure Same (s s' : Text) (t t' : Token) : Prop where
  kind : t'.kind = t.kind
  text : t'.span.text s' = unifyLineEnds (t.span.text s)
  rest : s'.drop t'.span.stop = unifyLineEnds (s.drop t.span.stop)

theorem text_shift (t : Token) (c : Char) (s : Text) :
    (shift t).span.text (c :: s) = t.span.text s := by
  simp [shift, Span.shift, Span.text]

theorem drop_stop_shift (t : Token) (c : Char) (s : Text) :
    (c :: s).drop (shift t).span.stop = s.drop t.span.stop := by
  simp [shift]

theorem Same.cons {s' : Text} {t t' : Token} (h : Same s s' t t') (c d : Char) :
    Same (c :: s) (d :: s') (shift t) (shift t') where
  kind := h.kind
  text := by rw [text_shift, text_shift, h.text]
  rest := by rw [drop_stop_shift, drop_stop_shift, h.rest]

theorem Same.cons_left {s' : Text} {t t' : Token} (h : Same s s' t t') (c : Char) :
    Same (c :: s) s' (shift t) t' where
  kind := h.kind
  text := by rw [text_shift, h.text]
  rest := by rw [drop_stop_shift, h.rest]

theorem Begins.same (h : Begins fresh s kind n) :
    Same s (unifyLineEnds s) ⟨kind, ⟨0, n⟩⟩ ⟨kind, ⟨0, unifiedLength s n⟩⟩ where
  kind := rfl
  text := by
    rw [h.unifyLineEnds_eq]
    simp [Span.text, unifiedLength]
  rest := by
    rw [h.unifyLineEnds_eq]
    simp [Span.stop, unifiedLength]

theorem opensComment_unifyLineEnds (c : Char) (s : Text) :
    opensComment (c :: unifyLineEnds s) = opensComment (c :: s) := by
  rw [Bool.eq_iff_iff, opensComment_cons_iff, opensComment_cons_iff]
  constructor
  · rintro ⟨hmark, hs⟩
    exact ⟨hmark, head?_of_unifyLineEnds (by decide) hs⟩
  · rintro ⟨hmark, hs⟩
    obtain ⟨t, rfl⟩ := List.head?_eq_some_iff.1 hs
    exact ⟨hmark, rfl⟩

theorem scan_of_isBlank (hc : isBlank c = true) (fresh : Bool) (s : Text) :
    scan fresh (c :: s) = (scan fresh s).map shift := by
  rw [scan, front?_of_isBlank hc, opensComment_of_isBlank hc]
  simp

/-- The walk over a text stops at the same token with unified line ends. -/
theorem scan_unifyLineEnds (fresh : Bool) (s : Text) :
    Option.Rel (Same s (unifyLineEnds s)) (scan fresh s) (scan fresh (unifyLineEnds s)) := by
  have hcons {s s' : Text} {a b : Option Token} (h : Option.Rel (Same s s') a b) (c d : Char) :
      Option.Rel (Same (c :: s) (d :: s')) (a.map shift) (b.map shift) := by
    cases h with
    | none => exact .none
    | some hsame => exact .some (hsame.cons c d)
  have hleft {s s' : Text} {a b : Option Token} (h : Option.Rel (Same s s') a b) (c : Char) :
      Option.Rel (Same (c :: s) s') (a.map shift) b := by
    cases h with
    | none => exact .none
    | some hsame => exact .some (hsame.cons_left c)
  induction s using lineEnd_induction generalizing fresh with
  | nil => exact .none
  | cons c s hc ih =>
    have hfront' := front?_unifyLineEnds fresh (c :: s)
    have hunified := unifyLineEnds_cons (s := s) hc
    cases hfront : front? fresh (c :: s) with
    | some found =>
      have hsame := (begins_of_front? hfront).same
      rw [hfront, hunified] at hfront'
      rw [hunified] at hsame ⊢
      rw [scan, scan, hfront, hfront']
      exact .some hsame
    | none =>
      rw [hfront, hunified] at hfront'
      rw [hunified, scan, scan, hfront, hfront', opensComment_unifyLineEnds]
      exact hcons (ih _) c c
  | pair s ih =>
    rw [unifyLineEnds_pair, scan_of_isBlank (by decide)]
    exact hleft (ih fresh) '\r'
  | lone s hs ih =>
    rw [unifyLineEnds_return hs, scan_of_isBlank (by decide), scan_of_isBlank (by decide)]
    exact hcons (ih fresh) '\r' '\n'

theorem nearest?_unifyLineEnds (s : Text) :
    Option.Rel (Same s (unifyLineEnds s)) (nearest? s) (nearest? (unifyLineEnds s)) := by
  have hscan := scan_unifyLineEnds true s
  rwa [← race_eq_scan, ← race_eq_scan, ← nearest?_eq_race_from, ← nearest?_eq_race_from] at hscan

theorem Same.mark_eq {s' : Text} {t t' : Token} (h : Same s s' t t') (ht : nearest? s = some t) :
    (Lexeme.ofToken s' t').mark = (Lexeme.ofToken s t).mark.mapText unifyLineEnds := by
  have hsound := (Lexeme.sound_ofToken ht).text
  obtain ⟨kind, span⟩ := t
  obtain ⟨_, span'⟩ := t'
  cases h.kind
  cases kind with
  | opener => rfl
  | closer => rfl
  | atom kind =>
    have hspelled : Spelled kind (span.text s) := front?_of_begins hsound
    exact congrArg _ (h.text.trans hspelled.unifyLineEnds_eq)

/-- With unified line ends a text has the same tokens, with unified line ends. -/
theorem map_mark_stream_unifyLineEnds (s : Text) :
    (stream (unifyLineEnds s)).map Lexeme.mark =
      ((stream s).map Lexeme.mark).map (Mark.mapText unifyLineEnds) := by
  fun_induction stream s with
  | case1 s hnone =>
    have hnext := nearest?_unifyLineEnds s
    rw [hnone] at hnext
    generalize hnearest : nearest? (unifyLineEnds s) = found at hnext
    cases hnext with
    | none => rw [stream_of_none hnearest]; rfl
  | case2 s t ht ih =>
    have hnext := nearest?_unifyLineEnds s
    rw [ht] at hnext
    generalize hnearest : nearest? (unifyLineEnds s) = found at hnext
    cases hnext with
    | some hsame =>
      rw [stream_of_nearest? hnearest, List.map_cons, List.map_cons, List.map_cons,
        hsame.mark_eq ht, hsame.rest, ih]

end Token

end DesignRecipe
