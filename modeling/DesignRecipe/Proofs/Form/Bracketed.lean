import DesignRecipe.Proofs.Form.RoundTrip
import DesignRecipe.Proofs.Token.LineBreak
import DesignRecipe.Proofs.Token.LineEnding

/-!
# Reading a text in brackets

A closing bracket behind a text is a token of its own, unless the text ends inside a line comment,
which then takes the bracket in. Strings and block comments that the text leaves open are not closed
by it. So a text in brackets is read as a single list exactly if the text alone is read to its end,
and the forms of the text are then the items of the list.
-/
namespace DesignRecipe

namespace Token

variable {c : Char} {s : Text} {n : Nat} {fresh : Bool} {t : Token}

/-- What is found within a text by a mark at its end is found without a character behind the text
that is not the mark. -/
theorem eq_some_of_append_singleton {find : Text → Option Nat} {mark : Char}
    (hlocal : ∀ {s n}, find s = some n →
      n ≤ s.length ∧ find (s.take n) = some n ∧ ∀ t, find (s ++ t) = some n)
    (hlast : ∀ {s n}, find s = some n → (s.take n).getLast? = some mark) (hc : c ≠ mark)
    (h : find (s ++ [c]) = some n) : find s = some n := by
  obtain ⟨hle, htake, -⟩ := hlocal h
  rcases Nat.lt_or_ge s.length n with hlong | hshort
  · have hall : (s ++ [c]).take n = s ++ [c] := List.take_of_length_le (by simp; omega)
    have hmark := hlast h
    rw [hall, List.getLast?_concat] at hmark
    exact absurd (Option.some.inj hmark) hc
  · rw [List.take_append_of_le_length hshort] at htake
    have hfound := (hlocal htake).2.2 (s.drop n)
    rwa [List.take_append_drop] at hfound

/-! ### The front of a text -/

/-- A token keeps its length, or it is a line comment through the end of the text, which takes the
bracket in. -/
theorem Begins.append_closer {kind : Kind} (h : Begins fresh s kind n) :
    Begins fresh (s ++ [')']) kind n ∨
      kind = .atom .lineComment ∧ n = s.length ∧ Begins fresh (s ++ [')']) kind (n + 1) := by
  have hkeeps (hkind : kind ≠ .atom .lineComment) : Begins fresh (s ++ [')']) kind n := by
    apply h.append
    rintro atom rfl
    exact Text.stops_cons.2 (continues_eq_false (by simpa using hkind) (.inr rfl))
  cases h with
  | @lineComment s =>
    have hbehind := @Begins.lineComment fresh (s ++ [')'])
    rw [List.takeWhile_append] at hbehind
    split_ifs at hbehind with hall
    · have hbracket : [')'].takeWhile (!isLineEnd ·) = [')'] := rfl
      rw [hbracket, List.length_append] at hbehind
      refine .inr ⟨rfl, ?_, ?_⟩
      · rw [hall, List.length_cons, Nat.add_comm]
      · rw [hall]
        exact hbehind
    · exact .inl hbehind
  | name =>
    apply Or.inl
    apply hkeeps
    unfold nameKind
    split_ifs <;> simp
  | _ => exact .inl (hkeeps (by simp))

/-- A character that is skipped is still skipped. -/
theorem front?_append_closer (h : front? fresh (c :: s) = none) :
    front? fresh (c :: s ++ [')']) = none := by
  rw [List.cons_append]
  apply front?_eq_none_of_headLike h (.append_cons (by decide) (by decide) s [])
  · intro _ n hm
    exact ⟨n, eq_some_of_append_singleton closingQuote_local getLast?_take_of_closingQuote
      (by decide) hm⟩
  · intro _ n hm
    rw [← List.cons_append] at hm
    exact ⟨n, eq_some_of_append_singleton blockComment_local getLast?_take_of_blockComment
      (by decide) hm⟩

theorem opensComment_append_closer (s : Text) : opensComment (s ++ [')']) = opensComment s := by
  rcases s with _ | ⟨c, _ | ⟨d, s⟩⟩
  · rfl
  · rw [List.singleton_append, opensComment_cons_cons]
    simp [opensComment]
  · simp [opensComment_cons_cons]

/-! ### The race -/

theorem scan_append_closer_of_none (h : scan fresh s = none) :
    scan fresh (s ++ [')']) = some ⟨.closer, ⟨s.length, 1⟩⟩ := by
  induction s generalizing fresh with
  | nil => rfl
  | cons c s ih =>
    rw [scan] at h
    split at h
    · cases h
    · next hfront =>
      have hfront' := front?_append_closer hfront
      have hmark' := opensComment_append_closer (c :: s)
      rw [List.cons_append] at hfront' hmark' ⊢
      rw [scan, hfront', hmark']
      exact congrArg (Option.map shift) (ih (Option.map_eq_none_iff.1 h))

/-- The token reached stays the same, or it is a line comment through the end of the text, which
then is longer by the bracket. -/
theorem scan_append_closer (h : scan fresh s = some t) :
    scan fresh (s ++ [')']) = some t ∨
      t.kind = .atom .lineComment ∧ t.span.stop = s.length ∧
        scan fresh (s ++ [')']) = some ⟨t.kind, ⟨t.span.index, t.span.length + 1⟩⟩ := by
  induction s generalizing fresh t with
  | nil => cases h
  | cons c s ih =>
    cases hfront : front? fresh (c :: s) with
    | some winner =>
      obtain ⟨kind, n⟩ := winner
      have hbegins := begins_of_front? hfront
      rw [scan, hfront] at h
      cases h
      rcases hbegins.append_closer with hsame | ⟨hkind, hlength, hlonger⟩
      · have hfront' := front?_of_begins hsame
        rw [List.cons_append] at hfront' ⊢
        rw [scan, hfront']
        exact .inl rfl
      · have hfront' := front?_of_begins hlonger
        rw [List.cons_append] at hfront' ⊢
        rw [scan, hfront']
        refine .inr ⟨hkind, ?_, rfl⟩
        rw [Span.stop, hlength, Nat.zero_add]
    | none =>
      rw [scan, hfront] at h
      obtain ⟨u, hu, rfl⟩ := Option.map_eq_some_iff.1 h
      have hfront' := front?_append_closer hfront
      have hmark' := opensComment_append_closer (c :: s)
      rw [List.cons_append] at hfront' hmark' ⊢
      rw [scan, hfront', hmark']
      rcases ih hu with hsame | ⟨hkind, hstop, hlonger⟩
      · exact .inl (congrArg (Option.map shift) hsame)
      · refine .inr ⟨hkind, ?_, congrArg (Option.map shift) hlonger⟩
        simp [shift, hstop]

theorem nearest?_append_closer_of_none (h : nearest? s = none) :
    nearest? (s ++ [')']) = some ⟨.closer, ⟨s.length, 1⟩⟩ := by
  rw [nearest?_eq_race_from, race_eq_scan] at h ⊢
  exact scan_append_closer_of_none h

theorem nearest?_append_closer (h : nearest? s = some t) :
    nearest? (s ++ [')']) = some t ∨
      t.kind = .atom .lineComment ∧ t.span.stop = s.length ∧
        nearest? (s ++ [')']) = some ⟨t.kind, ⟨t.span.index, t.span.length + 1⟩⟩ := by
  rw [nearest?_eq_race_from, race_eq_scan] at h ⊢
  exact scan_append_closer h

/-! ### The stream -/

/-- An atom that ends where the text ends is the last token. -/
theorem map_mark_stream_of_last {kind : AtomKind} {index length : Nat}
    (h : nearest? s = some ⟨.atom kind, ⟨index, length⟩⟩) (hend : index + length = s.length) :
    (stream s).map Lexeme.mark = [.atom kind (s.drop index)] := by
  have hlength : length = (s.drop index).length := by
    rw [List.length_drop]
    omega
  have hnothing : s.drop (index + length) = [] := List.drop_of_length_le (Nat.le_of_eq hend.symm)
  rw [stream_of_nearest? h, Span.stop, hnothing, stream_nil, hlength]
  simp [Lexeme.ofToken, Lexeme.mark, Span.text]

/-- The tokens of a text with a closing bracket behind it. -/
theorem map_mark_stream_append_closer (s : Text) :
    (stream (s ++ [')'])).map Lexeme.mark = (stream s).map Lexeme.mark ++ [.closer] ∨
      ∃ ms u, (stream s).map Lexeme.mark = ms ++ [.atom .lineComment u] ∧
        (stream (s ++ [')'])).map Lexeme.mark = ms ++ [.atom .lineComment (u ++ [')'])] := by
  fun_induction stream s with
  | case1 s hnone =>
    rw [stream_of_nearest? (nearest?_append_closer_of_none hnone)]
    simp [Lexeme.ofToken, Lexeme.mark, Span.stop]
  | case2 s t ht ih =>
    have hstop := stop_le_length ht
    rcases nearest?_append_closer ht with hsame | ⟨hkind, hend, hlonger⟩
    · rw [stream_of_nearest? hsame, ofToken_append hstop, List.drop_append_of_le_length hstop]
      rcases ih with hbracket | ⟨ms, u, hms, hlonger⟩
      · left
        rw [List.map_cons, List.map_cons, hbracket, List.cons_append]
      · right
        refine ⟨(Lexeme.ofToken s t).mark :: ms, u, ?_, ?_⟩
        · rw [List.map_cons, hms, List.cons_append]
        · rw [List.map_cons, hlonger, List.cons_append]
    · obtain ⟨kind, index, length⟩ := t
      subst hkind
      have hend' : index + (length + 1) = (s ++ [')']).length := by
        rw [List.length_append, ← hend]
        rfl
      have hindex : index ≤ s.length := Nat.le_trans (Nat.le_add_right _ _) hstop
      refine .inr ⟨[], s.drop index, ?_, ?_⟩
      · rw [← stream_of_nearest? ht, map_mark_stream_of_last ht hend, List.nil_append]
      · rw [map_mark_stream_of_last hlonger hend', List.drop_append_of_le_length hindex,
          List.nil_append]

end Token

namespace Lexeme

theorem count_mark_opener (xs : List Lexeme) : (xs.map mark).count .opener = openers xs := by
  rw [List.count, List.countP_map, openers]
  apply List.countP_congr
  intro x _
  simp [mark_eq_opener_iff]

theorem count_mark_closer (xs : List Lexeme) : (xs.map mark).count .closer = closers xs := by
  rw [List.count, List.countP_map, closers]
  apply List.countP_congr
  intro x _
  simp [mark_eq_closer_iff]

end Lexeme

namespace Reader

open Token Lexeme Form

variable {s : Text}

/-- A text that is read to its end in brackets closes as many lists as it opens, and then the
bracket behind it is a token, or it closes one list more. -/
theorem balance_of_bracketed (h : (read ('(' :: s ++ [')'])).status = .complete) :
    ((stream (s ++ [')'])).map mark = (stream s).map mark ++ [.closer] ∧
        openers (stream s) = closers (stream s)) ∨
      openers (stream s) + 1 = closers (stream s) := by
  have hbalance := ((status_read _).2.1.1 h).2
  rw [← count_mark_opener, ← count_mark_closer, List.cons_append, map_mark_stream_opener] at hbalance
  rw [← count_mark_opener, ← count_mark_closer]
  rcases map_mark_stream_append_closer s with hbracket | ⟨ms, u, hms, hlonger⟩
  · rw [hbracket] at hbalance
    exact .inl ⟨hbracket, by simpa using hbalance⟩
  · rw [hlonger] at hbalance
    rw [hms]
    exact .inr (by simpa using hbalance)

theorem forms_bracketed (h : (read ('(' :: s ++ [')'])).status = .complete)
    (hs : (read s).status = .complete) :
    (read ('(' :: s ++ [')'])).forms = [.list (read s).forms] := by
  have hbalance := ((status_read s).2.1.1 hs).2
  rcases balance_of_bracketed h with ⟨hbracket, -⟩ | hover
  · refine (read_eq_forms_iff.2 ?_).2
    rw [List.cons_append, map_mark_stream_opener, hbracket, ← writeAll_forms_of_complete hs]
    simp [writeAll, write]
  · omega

theorem complete_of_forms_bracketed {f : Form} (h : (read ('(' :: s ++ [')'])).status = .complete)
    (hf : (read ('(' :: s ++ [')'])).forms = [f]) : (read s).status = .complete := by
  have hmarks := read_eq_forms_iff.1 ⟨h, hf⟩
  rw [List.cons_append, map_mark_stream_opener] at hmarks
  cases f with
  | atom kind text => cases hmarks
  | list items =>
    have hinside : (stream (s ++ [')'])).map mark = writeAll items ++ [.closer] := by
      simpa [writeAll, write] using hmarks
    rcases map_mark_stream_append_closer s with hbracket | ⟨ms, u, -, hlonger⟩
    · rw [hbracket, List.append_cancel_right_eq] at hinside
      exact (read_eq_forms_iff.2 hinside).1
    · rw [hlonger] at hinside
      have hlast := (List.append_inj' hinside rfl).2
      cases hlast

/-- A text in brackets that is read to its end is read as a single list, if the text alone is read to
its end, and as more than one form otherwise, and then the text alone has a stray closer. -/
theorem bracketed_cases (h : (read ('(' :: s ++ [')'])).status = .complete) :
    (read s).status = .complete ∧ (read ('(' :: s ++ [')'])).forms = [.list (read s).forms] ∨
      (read s).status = .strayCloser ∧ ∀ f, (read ('(' :: s ++ [')'])).forms ≠ [f] := by
  cases hs : (read s).status with
  | reading => exact absurd hs (status_run_ne _)
  | complete => exact .inl ⟨rfl, forms_bracketed h hs⟩
  | unclosed =>
    have hopen := ((status_read s).2.2.1 hs).2
    rcases balance_of_bracketed h with ⟨-, hbalance⟩ | hover <;> omega
  | strayCloser =>
    refine .inr ⟨rfl, ?_⟩
    intro f hf
    rw [complete_of_forms_bracketed h hf] at hs
    cases hs

end Reader

end DesignRecipe
