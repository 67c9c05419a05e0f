import DesignRecipe.Proofs.Form.Tiling

/-!
# Quotes that are skipped

A string that is never closed does not turn what follows inside out. Every quote behind its own is
escaped, seen from there, and what follows an escaped quote is met in the same state as what follows
a quote that opens a string. So no later quote finds a partner either, and a reader that has skipped
a quote finds no strings any more.
-/
namespace DesignRecipe

/-! ### Where no string begins -/

namespace Token

/-- No string begins anywhere in the text. -/
def Stringless (s : Text) : Prop := ∀ t, t <:+ s → Rule.string t = none

variable {code front s t : Text} {c : Char}

theorem Stringless.of_suffix (h : Stringless s) (ht : t <:+ s) : Stringless t :=
  fun u hu => h u (hu.trans ht)

theorem stringless_nil : Stringless [] := by
  intro t ht
  rw [List.suffix_nil.1 ht]
  rfl

theorem stringless_cons_iff :
    Stringless (c :: s) ↔ Rule.string (c :: s) = none ∧ Stringless s := by
  constructor
  · intro h
    exact ⟨h _ (List.suffix_refl _), h.of_suffix (List.suffix_cons c s)⟩
  · rintro ⟨hc, hs⟩ t ht
    rcases List.suffix_cons_iff.1 ht with rfl | ht
    · exact hc
    · exact hs t ht

theorem string_of_ne_quote (hc : c ≠ '"') : Rule.string (c :: s) = none := by
  unfold Rule.string
  split
  · next heq => exact absurd (List.cons.inj heq).1 hc
  · rfl

theorem string_quote (s : Text) :
    Rule.string ('"' :: s) = (closingQuote false s).map (· + 1) := by
  rw [closingQuote_eq, Rule.string]

/-- A walk that has not ended at a quote has met it escaped, and goes on behind it as from a quote
that opens a string. -/
theorem closingQuote_behind_quote {escaped : Bool}
    (h : closingQuote escaped (front ++ '"' :: s) = none) : closingQuote false s = none := by
  induction front generalizing escaped with
  | nil =>
    rw [List.nil_append, closingQuote] at h
    split_ifs at h with hescaped hquote
    · exact Option.map_eq_none_iff.1 h
    · exact absurd rfl hquote
  | cons c front ih =>
    rw [List.cons_append, closingQuote] at h
    split_ifs at h
    · exact ih (Option.map_eq_none_iff.1 h)
    · exact ih (Option.map_eq_none_iff.1 h)

/-- If no string begins at a quote, none begins behind it. -/
theorem stringless_of_string_eq_none (h : Rule.string ('"' :: s) = none) :
    Stringless ('"' :: s) := by
  rw [string_quote, Option.map_eq_none_iff] at h
  rw [stringless_cons_iff, string_quote, h]
  refine ⟨rfl, ?_⟩
  rintro t ⟨between, rfl⟩
  cases t with
  | nil => rfl
  | cons c t =>
    by_cases hc : c = '"'
    · subst hc
      rw [string_quote, closingQuote_behind_quote h]
      rfl
    · exact string_of_ne_quote hc

/-- Characters other than quotes begin no strings. -/
theorem stringless_append_iff (hfront : '"' ∉ front) :
    Stringless (front ++ s) ↔ Stringless s := by
  induction front with
  | nil => rfl
  | cons c front ih =>
    obtain ⟨hc, hfront⟩ := not_or.1 (mt List.mem_cons.2 hfront)
    rw [List.cons_append, stringless_cons_iff, string_of_ne_quote (Ne.symm hc), ih hfront]
    exact and_iff_right rfl

/-! ### The search for strings -/

theorem leftmost_string_eq_none (h : Stringless s) : Span.leftmost Rule.string s = none := by
  induction s with
  | nil => rfl
  | cons c s ih =>
    obtain ⟨hc, hs⟩ := stringless_cons_iff.1 h
    rw [Span.leftmost, hc, ih hs]
    rfl

/-- The search for a string ends at the first quote. -/
theorem search_string (hfront : '"' ∉ front) (s : Text) :
    Kind.search (.atom .string) (front ++ '"' :: s) =
      (Rule.string ('"' :: s)).map (⟨front.length, ·⟩) := by
  induction front with
  | nil =>
    cases hstring : Rule.string ('"' :: s) with
    | none => exact leftmost_string_eq_none (stringless_of_string_eq_none hstring)
    | some n => simp [Kind.search, Span.leftmost, hstring]
  | cons c front ih =>
    obtain ⟨hc, hfront⟩ := not_or.1 (mt List.mem_cons.2 hfront)
    have hbehind : Span.leftmost Rule.string (front ++ '"' :: s) = _ := ih hfront
    rw [Kind.search, List.cons_append, Span.leftmost, string_of_ne_quote (Ne.symm hc), hbehind,
      Option.map_map]
    rfl

theorem search_string_of_notMem (h : '"' ∉ code) : Kind.search (.atom .string) code = none := by
  have hstringless := (stringless_append_iff (s := []) h).2 stringless_nil
  rw [List.append_nil] at hstringless
  exact leftmost_string_eq_none hstringless

/-! ### Behind a quote that is skipped -/

/-- A quote that the walk passes opens no string. -/
theorem stringless_of_scan {fresh : Bool} {token : Token} (h : scan fresh code = some token)
    (hquote : '"' ∈ code.take token.span.index) : Stringless code := by
  induction code generalizing fresh token with
  | nil => simp at hquote
  | cons c s ih =>
    rw [scan] at h
    split at h
    · cases h
      simp at hquote
    · next hfront =>
      by_cases hc : c = '"'
      · subst hc
        apply stringless_of_string_eq_none
        by_contra hstring
        obtain ⟨n, hn⟩ := Option.ne_none_iff_exists'.1 hstring
        obtain ⟨m, hm, -⟩ := Option.map_eq_some_iff.1 ((string_quote s).symm.trans hn)
        exact front?_eq_none_iff.1 hfront _ _ (.string hm)
      · obtain ⟨u, hu, rfl⟩ := Option.map_eq_some_iff.1 h
        have hbehind : '"' ∈ s.take u.span.index := by
          simpa [shift, Span.shift, Ne.symm hc] using hquote
        exact stringless_cons_iff.2 ⟨string_of_ne_quote hc, ih hu hbehind⟩

theorem stringless_of_nearest? {token : Token} (h : nearest? code = some token)
    (hquote : '"' ∈ code.take token.span.index) : Stringless code := by
  rw [nearest?_eq_race_from, race_eq_scan] at h
  exact stringless_of_scan h hquote

theorem Begins.string_eq_some {fresh : Bool} {n : Nat} (h : Begins fresh s (.atom .string) n) :
    Rule.string s = some n := by
  generalize hkind : Kind.atom .string = kind at h
  cases h with
  | string hm =>
    rw [string_quote, hm]
    rfl
  | name =>
    unfold nameKind at hkind
    split_ifs at hkind <;> cases hkind
  | _ => cases hkind

theorem Stringless.kind_ne_string {x : Lexeme} (h : Stringless code) (hx : x ∈ stream code) :
    x.kind ≠ .atom .string := by
  fun_induction stream code with
  | case1 => cases hx
  | case2 code token htoken ih =>
    rcases List.mem_cons.1 hx with rfl | hx
    · intro hkind
      change token.kind = .atom .string at hkind
      obtain ⟨-, -, fresh, hbegins⟩ := Lexeme.exists_begins_ofToken htoken
      rw [hkind] at hbegins
      have hstring := hbegins.string_eq_some
      have hsuffix := Lexeme.whole_ofToken code token
      rw [Lexeme.whole, List.append_assoc] at hsuffix
      rw [h _ ⟨_, hsuffix⟩] at hstring
      cases hstring
    · exact ih (h.of_suffix (List.drop_suffix _ _)) hx

end Token

/-! ### Reading on -/

namespace Reader

open Token Lexeme

variable {code : Text} {xs : List Lexeme} {q r : Reader} {k : ℕ}

/-- What a reader writes from some point on are the tokens from there on, up to some token. -/
theorem HasRead.exists_written (h : HasRead code xs q) (hk : advances k q = .ok r) :
    ∃ ys, ys <+: stream q.rest ∧ r.written = q.written ++ ys.map mark := by
  obtain ⟨ys, hys⟩ := h.advances_cases hk
  have hlater {s : Reader} (hs : HasRead code (xs ++ ys) s) :
      ys <+: stream q.rest ∧ s.written = q.written ++ ys.map mark := by
    have hstream := hs.stream_eq
    rw [h.stream_eq, List.append_assoc, List.append_cancel_left_eq] at hstream
    exact ⟨⟨_, hstream.symm⟩, by rw [hs.written_eq, h.written_eq, List.map_append]⟩
  refine ⟨ys, ?_⟩
  rcases hys with ⟨-, hr⟩ | ⟨-, s, hs, hend, rfl⟩
  · exact hlater hr
  · obtain ⟨hinitial, hwritten⟩ := hlater hs
    rw [step_eq_of_atEnd hend]
    exact ⟨hinitial, hwritten⟩

/-- Where no string begins, none is read. -/
theorem exists_marks_of_stringless (h : HasRead code xs q) (hrest : Stringless q.rest)
    (hk : advances k q = .ok r) :
    ∃ marks, r.written = q.written ++ marks ∧ ∀ text, Mark.atom .string text ∉ marks := by
  obtain ⟨ys, hinitial, hwritten⟩ := h.exists_written hk
  refine ⟨ys.map mark, hwritten, ?_⟩
  intro text htext
  obtain ⟨y, hy, hmark⟩ := List.mem_map.1 htext
  exact hrest.kind_ne_string (hinitial.subset hy) (mark_eq_atom_iff.1 hmark).1

/-- The search for a string gives what begins at the first quote, and if no string begins there, none
begins anywhere. A reader that has skipped a quote on its way to a token reads no string from there
on. -/
theorem skipped_quote_ends_strings (code : Text) :
    ('"' ∉ code → Kind.search (.atom .string) code = none) ∧
    (∀ front s, code = front ++ '"' :: s → '"' ∉ front →
      Kind.search (.atom .string) code = (Rule.string ('"' :: s)).map (⟨front.length, ·⟩) ∧
        (Rule.string ('"' :: s) = none → ∀ t, t <:+ code → Rule.string t = none)) ∧
    ∀ j q token, advances j (ofText code) = .ok q → nearest? q.rest = some token →
      '"' ∈ q.rest.take token.span.index → ∀ k r, advances k q = .ok r →
        ∃ marks, r.written = q.written ++ marks ∧ ∀ text, Mark.atom .string text ∉ marks := by
  refine ⟨search_string_of_notMem, ?_, ?_⟩
  · rintro front s rfl hfront
    refine ⟨search_string hfront s, ?_⟩
    intro hstring
    exact (stringless_append_iff hfront).2 (stringless_of_string_eq_none hstring)
  · intro j q token hj htoken hquote k r hk
    by_cases hreading : q.status = .reading
    · obtain ⟨xs, -, h⟩ := (hasRead_ofText code).of_advances hj hreading
      exact exists_marks_of_stringless h (stringless_of_nearest? htoken hquote) hk
    · -- a reader that has ended takes no steps
      cases k with
      | zero =>
        cases hk
        exact ⟨[], by simp, by simp⟩
      | succ k =>
        rw [advances_of_ended hreading] at hk
        cases hk

/-- In `a "b\"c\"d` both later quotes are escaped, seen from the first one, and each of them is the
first one of what is left behind a name that ends in a backslash. -/
theorem skipped_quote_ends_strings_of_escaped :
    Kind.search (.atom .string) "a".toList = none ∧
      Kind.search (.atom .string) "a \"b\\\"c\\\"d".toList = none ∧
      (∀ t, t <:+ "a \"b\\\"c\\\"d".toList → Rule.string t = none) ∧
      ∃ q r, advances 1 (ofText "a \"b\\\"c\\\"d".toList) = .ok q ∧ advances 4 q = .ok r ∧
        r.status = .complete ∧ r.rest = [] ∧
        ∃ marks, r.written = q.written ++ marks ∧ ∀ text, Mark.atom .string text ∉ marks := by
  obtain ⟨-, hsearch, hread⟩ := skipped_quote_ends_strings "a \"b\\\"c\\\"d".toList
  obtain ⟨hfirst, hlater⟩ := hsearch "a ".toList "b\\\"c\\\"d".toList rfl (by decide)
  have hnone := (skipped_quote_ends_strings "a".toList).1 (by decide)
  exact ⟨hnone, hfirst, hlater rfl, _, _, rfl, rfl, rfl, rfl,
    hread 1 _ ⟨.atom .identifier, ⟨2, 2⟩⟩ rfl (by decide) (by decide) 4 _ rfl⟩

end Reader

end DesignRecipe
