import DesignRecipe.Proofs.Token.Stream

/-!
# Tokens in front of a line break

No token goes on behind a line break at which it ends. So the tokens of a text stay what they are
when another text follows on the next line, unless something was skipped that may find what closes
it there: a quote or the mark of a block comment.
-/
namespace DesignRecipe.Token

/-- Nothing in the text waits to be closed. -/
def Plain (s : Text) : Prop := '"' ∉ s ∧ ¬['#', '|'] <:+: s

instance (s : Text) : Decidable (Plain s) := inferInstanceAs (Decidable (_ ∧ _))

variable {c : Char} {s a : Text} {t : Token}

theorem Plain.ne_quote (h : Plain (c :: s)) : c ≠ '"' := by
  rintro rfl
  exact h.1 List.mem_cons_self

theorem Plain.tail (h : Plain (c :: s)) : Plain s := by
  constructor
  · intro hquote
    exact h.1 (List.mem_cons_of_mem c hquote)
  · intro hmark
    exact h.2 (hmark.trans (List.suffix_cons c s).isInfix)

theorem Plain.opensComment_eq_false (h : Plain s) : opensComment s = false := by
  unfold opensComment
  split
  · next s => exact absurd ⟨[], s, rfl⟩ h.2
  · rfl

theorem opensComment_cons_cons (c d : Char) (s : Text) :
    opensComment (c :: d :: s) = (c == '#' && d == '|') := by
  unfold opensComment
  split <;> simp_all

/-! ### Texts that begin alike -/

/-- The second text begins as the first one does, or with a character that neither goes on with a
name nor completes the mark of a comment. -/
def HeadLike (s s' : Text) : Prop := ∀ d ∈ s'.head?, d ∈ s.head? ∨ (isNameChar d = false ∧ d ≠ '|')

theorem HeadLike.refl (s : Text) : HeadLike s s := fun _ hd => .inl hd

theorem HeadLike.of_cons {d : Char} {s' : Text} (hname : isNameChar d = false) (hbar : d ≠ '|') :
    HeadLike s (d :: s') := by
  rintro e ⟨⟩
  exact .inr ⟨hname, hbar⟩

variable {s' gap b : Text} {fresh : Bool} {kind : Kind} {n k : Nat}

theorem HeadLike.append_left (h : HeadLike s s') (gap : Text) :
    HeadLike (gap ++ s) (gap ++ s') := by
  cases gap with
  | nil => exact h
  | cons c gap => exact fun _ hd => .inl hd

/-- Characters that no name and no mark goes on with may be added. -/
theorem HeadLike.append_cons {d : Char} (hname : isNameChar d = false) (hbar : d ≠ '|')
    (s b : Text) : HeadLike s (s ++ d :: b) := by
  have hbehind : HeadLike (s ++ []) (s ++ d :: b) := (of_cons hname hbar).append_left s
  rwa [List.append_nil] at hbehind

theorem headLike_append_lineFeed (s b : Text) : HeadLike s (s ++ '\n' :: b) :=
  .append_cons (by decide) (by decide) s b

theorem HeadLike.stops (h : HeadLike s s') (hs : Text.Stops isNameChar s) :
    Text.Stops isNameChar s' := by
  intro d hd
  rcases h d hd with hsame | ⟨hname, -⟩
  · exact hs d hsame
  · exact hname

theorem HeadLike.opensComment_eq_false (h : HeadLike s s') (hs : opensComment (c :: s) = false) :
    opensComment (c :: s') = false := by
  rw [← Bool.not_eq_true, opensComment_cons_iff] at hs ⊢
  rintro ⟨hc, hs'⟩
  rcases h '|' hs' with hsame | ⟨-, hbar⟩
  · exact hs ⟨hc, hsame⟩
  · exact hbar rfl

/-! ### The front of a text -/

theorem Begins.append_lineFeed (h : Begins fresh s kind n) (b : Text) :
    Begins fresh (s ++ '\n' :: b) kind n := by
  apply h.append
  intro atom _
  exact Text.stops_cons.2 (continues_lineFeed atom)

/-- A character that is skipped is still skipped in front of a text that begins alike, unless a
string or a comment is closed there that was not closed before. -/
theorem front?_eq_none_of_headLike (h : front? fresh (c :: s) = none) (hhead : HeadLike s s')
    (hstring : c = '"' → ∀ n, closingQuote false s' = some n → ∃ m, closingQuote false s = some m)
    (hcomment : c = '#' → ∀ n, Rule.blockComment ('#' :: s') = some n →
      ∃ m, Rule.blockComment ('#' :: s) = some m) :
    front? fresh (c :: s') = none := by
  rw [front?_eq_none_iff] at h ⊢
  intro kind n hbegins
  cases hbegins with
  | opener hopener => exact h _ _ (.opener hopener)
  | closer hcloser => exact h _ _ (.closer hcloser)
  | lineComment => exact h _ _ .lineComment
  | string hm =>
    obtain ⟨m, hm⟩ := hstring rfl _ hm
    exact h _ _ (.string hm)
  | symbol hne =>
    apply h _ _ (.symbol _)
    rw [Ne, takeWhile_eq_nil_iff_stops] at hne ⊢
    exact mt hhead.stops hne
  | blockComment hfresh hm =>
    obtain ⟨m, hm⟩ := hcomment rfl _ hm
    exact h _ _ (.blockComment hfresh hm)
  | name hname hsemi => exact h _ _ (.name hname hsemi)

theorem front?_of_headLike (h : front? fresh (c :: s) = none) (hquote : c ≠ '"')
    (hmark : opensComment (c :: s) = false) (hhead : HeadLike s s') :
    front? fresh (c :: s') = none := by
  apply front?_eq_none_of_headLike h hhead
  · intro hc
    exact absurd hc hquote
  · rintro rfl n hm
    rw [blockComment_of_not_opensComment (hhead.opensComment_eq_false hmark)] at hm
    cases hm

/-! ### The race -/

theorem scan_of_begins (h : Begins true s kind n) : scan true s = some ⟨kind, ⟨0, n⟩⟩ := by
  cases s with
  | nil => cases h
  | cons c s => rw [scan, front?_of_begins h]

theorem scan_bar (fresh : Bool) (s : Text) : scan fresh ('|' :: s) = (scan fresh s).map shift := by
  have hfront : front? fresh ('|' :: s) = none := rfl
  have hmark : opensComment ('|' :: s) = false := rfl
  rw [scan, hfront, hmark]
  simp

/-- A mark in front of the token that is reached next stands in the gap as a whole. -/
theorem opensComment_take_of_scan (hfront : front? true (c :: s) = none)
    (h : scan true (c :: s) = some t) :
    opensComment ((c :: s).take t.span.index) = opensComment (c :: s) := by
  rw [scan, hfront] at h
  obtain ⟨u, hu, rfl⟩ := Option.map_eq_some_iff.1 h
  cases s with
  | nil => cases hu
  | cons d s =>
    by_cases hbar : d = '|'
    · subst hbar
      rw [scan_bar] at hu
      obtain ⟨v, -, rfl⟩ := Option.map_eq_some_iff.1 hu
      simp [shift, Span.shift, opensComment_cons_cons]
    · rcases Nat.eq_zero_or_pos u.span.index with hzero | hpos
      · simp [shift, Span.shift, hzero, hbar, opensComment]
      · obtain ⟨k, hk⟩ := Nat.exists_eq_succ_of_ne_zero hpos.ne'
        simp [shift, Span.shift, hk, opensComment_cons_cons]

/-- The walk passes a plain gap as before, if what stands behind it begins alike. -/
theorem scan_gap (h : scan true (gap ++ s) = some t) (hindex : t.span.index = gap.length)
    (hgap : Plain gap) (hhead : HeadLike s s') (h' : scan true s' = some ⟨kind, ⟨k, n⟩⟩) :
    scan true (gap ++ s') = some ⟨kind, ⟨gap.length + k, n⟩⟩ := by
  induction gap generalizing t with
  | nil => simpa using h'
  | cons c gap ih =>
    rw [List.cons_append] at h ⊢
    cases hfront : front? true (c :: (gap ++ s)) with
    | some winner =>
      rw [scan, hfront] at h
      cases h
      cases hindex
    | none =>
      -- no mark of a comment is passed, so the walk goes on in a fresh text
      have hmark : opensComment (c :: (gap ++ s)) = false := by
        rw [← opensComment_take_of_scan hfront h, hindex, ← List.cons_append, List.take_left]
        exact hgap.opensComment_eq_false
      rw [scan, hfront, hmark] at h
      obtain ⟨u, hu, rfl⟩ := Option.map_eq_some_iff.1 h
      have hbehind := hhead.append_left gap
      have hfront' := front?_of_headLike hfront hgap.ne_quote hmark hbehind
      have hmark' := hbehind.opensComment_eq_false hmark
      rw [scan, hfront', hmark']
      have hnext := ih hu (Nat.succ.inj hindex) hgap.tail
      simp only [Bool.not_false, Bool.and_true, hnext, Option.map_some, shift, Span.shift,
        List.length_cons]
      rw [Nat.add_right_comm]

theorem scan_append_lineFeed (h : scan true a = some t) (hgap : Plain (a.take t.span.index))
    (b : Text) : scan true (a ++ '\n' :: b) = some t := by
  obtain ⟨gap, s, rfl, hindex, -, _, hbegins⟩ := exists_begins_of_scan h
  rw [hindex, List.take_left] at hgap
  have hnext := scan_of_begins (hbegins.weaken.append_lineFeed b)
  rw [List.append_assoc, scan_gap h hindex hgap (headLike_append_lineFeed s b) hnext, Nat.add_zero,
    ← hindex]

/-- The race over a text keeps its winner if a text follows on the next line and the winner is
reached over a plain gap. -/
theorem nearest?_append_lineFeed (h : nearest? a = some t) (hgap : Plain (a.take t.span.index))
    (b : Text) : nearest? (a ++ '\n' :: b) = some t := by
  rw [nearest?_eq_race_from, race_eq_scan] at h ⊢
  exact scan_append_lineFeed h hgap b

/-! ### The stream -/

/-- A text without tokens is skipped, and the line break with it. -/
theorem map_mark_stream_append_of_none (h : nearest? a = none) (hplain : Plain a) (b : Text) :
    (stream (a ++ '\n' :: b)).map Lexeme.mark = (stream b).map Lexeme.mark := by
  induction a with
  | nil => exact map_mark_stream_blank (by decide) b
  | cons c s ih =>
    have hmark := hplain.opensComment_eq_false
    have hfront : front? true (c :: s) = none := by
      rw [front?_eq_none_iff]
      intro kind n hbegins
      simp [nearest?_of_begins hbegins] at h
    rw [nearest?_skip hfront hmark, Option.map_eq_none_iff] at h
    have hbehind := headLike_append_lineFeed s b
    have hfront' := front?_of_headLike hfront hplain.ne_quote hmark hbehind
    have hmark' := hbehind.opensComment_eq_false hmark
    rw [List.cons_append, map_mark_stream_skip hfront' hmark', ih h hplain.tail]

theorem stop_le_length (h : nearest? a = some t) : t.span.stop ≤ a.length := by
  obtain ⟨gap, s, rfl, hindex, -, fresh, hbegins⟩ := exists_begins_of_nearest? h
  have hle := hbegins.take.1
  rw [Span.stop, hindex, List.length_append]
  omega

theorem ofToken_append (h : t.span.stop ≤ a.length) (b : Text) :
    Lexeme.ofToken (a ++ b) t = Lexeme.ofToken a t := by
  have hindex : t.span.index ≤ a.length := Nat.le_trans (Nat.le_add_right _ _) h
  have hlength : t.span.length ≤ (a.drop t.span.index).length := by
    rw [List.length_drop]
    unfold Span.stop at h
    omega
  simp only [Lexeme.ofToken, Span.text, List.take_append_of_le_length hindex,
    List.drop_append_of_le_length hindex, List.take_append_of_le_length hlength]

/-- The tokens of a text and of another one on the next line are the tokens of both, if nothing
that the first text skips waits to be closed. -/
theorem map_mark_stream_append_lineFeed {rest : Text}
    (hrest : a = (stream a).flatMap Lexeme.whole ++ rest) (hgaps : ∀ x ∈ stream a, Plain x.gap)
    (hplain : Plain rest) (b : Text) :
    (stream (a ++ '\n' :: b)).map Lexeme.mark =
      (stream a).map Lexeme.mark ++ (stream b).map Lexeme.mark := by
  fun_induction stream a with
  | case1 a hnone =>
    obtain rfl : a = rest := by simpa using hrest
    exact map_mark_stream_append_of_none hnone hplain b
  | case2 a t ht ih =>
    obtain ⟨hgap, hgaps⟩ := List.forall_mem_cons.1 hgaps
    have hstop := stop_le_length ht
    have hnext := nearest?_append_lineFeed ht hgap b
    have hbehind := Lexeme.drop_stop_eq hrest
    rw [stream_of_nearest? hnext, ofToken_append hstop, List.drop_append_of_le_length hstop,
      List.map_cons, ih hbehind hgaps]
    rfl

end DesignRecipe.Token
