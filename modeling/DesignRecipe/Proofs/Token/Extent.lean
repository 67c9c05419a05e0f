import DesignRecipe.Proofs.Token.Scan

/-!
# How far a token reaches

A token at the front of a text is decided by its own characters and by the one behind them,
which must not go on with it. So a token that is cut out of its text reads the same alone,
and reads the same again in any text in which nothing goes on with it.
-/
namespace DesignRecipe.Token

/-- A character that makes an atom of the kind longer when it stands right behind it. -/
def continues : AtomKind → Char → Bool
  | .lineComment, c => !isLineEnd c
  | .number, c => isNameChar c
  | .symbol, c => isNameChar c
  | .identifier, c => isNameChar c
  | .blockComment, _ => false
  | .string, _ => false

theorem continues_lineFeed (kind : AtomKind) : continues kind '\n' = false := by
  cases kind <;> decide

/-- Alone the text is one atom of the kind. -/
def Spelled (kind : AtomKind) (text : Text) : Prop :=
  front? true text = some (.atom kind, text.length)

variable {c : Char} {s t : Text} {n : Nat}

/-- A string is closed by the same quote no matter what follows it. -/
theorem closingQuote_local {escaped : Bool} (h : closingQuote escaped s = some n) :
    n ≤ s.length ∧ closingQuote escaped (s.take n) = some n ∧
      ∀ t, closingQuote escaped (s ++ t) = some n := by
  induction s generalizing escaped n with
  | nil => simp [closingQuote] at h
  | cons c s ih =>
    rw [closingQuote] at h
    split_ifs at h with hescaped hquote
    · obtain ⟨m, hm, rfl⟩ := Option.map_eq_some_iff.1 h
      simp [closingQuote, hescaped, ih hm]
    · cases h
      simp [closingQuote, hescaped, hquote]
    · obtain ⟨m, hm, rfl⟩ := Option.map_eq_some_iff.1 h
      simp [closingQuote, hescaped, hquote, ih hm]

theorem closeComments_pos {depth : Nat} (h : Rule.closeComments depth s = some n) : 0 < n := by
  unfold Rule.closeComments at h
  split at h <;> simp at h
  all_goals omega

/-- A comment is closed by the same mark no matter what follows it. -/
theorem closeComments_local {depth : Nat} (h : Rule.closeComments depth s = some n) :
    n ≤ s.length ∧ Rule.closeComments depth (s.take n) = some n ∧
      ∀ t, Rule.closeComments depth (s ++ t) = some n := by
  fun_induction Rule.closeComments depth s generalizing n with
  | case1 => simp at h
  | case2 depth s ih =>
    obtain ⟨m, hm, rfl⟩ := Option.map_eq_some_iff.1 h
    simp [Rule.closeComments, ih hm]
  | case3 s =>
    cases h
    simp [Rule.closeComments]
  | case4 depth s ih =>
    obtain ⟨m, hm, rfl⟩ := Option.map_eq_some_iff.1 h
    simp [Rule.closeComments, ih hm]
  | case5 depth c s hopen hclose hinner ih =>
    obtain ⟨m, hm, rfl⟩ := Option.map_eq_some_iff.1 h
    obtain ⟨hle, htake, happend⟩ := ih hm
    cases s with
    | nil => simp [Rule.closeComments] at hm
    | cons d s =>
      have hopen' : ¬(c = '#' ∧ d = '|') := by
        rintro ⟨rfl, rfl⟩
        exact hopen s rfl rfl
      have hclose' : ¬(c = '|' ∧ d = '#') := by
        rintro ⟨rfl, rfl⟩
        cases depth with
        | zero => exact hclose s rfl rfl rfl
        | succ depth => exact hinner depth s rfl rfl rfl
      -- the character behind stays in reach, so no mark can come up at the cut
      obtain ⟨k, rfl⟩ := Nat.exists_eq_succ_of_ne_zero (closeComments_pos hm).ne'
      refine ⟨by simpa using hle, ?_, ?_⟩
      · rw [List.take_succ_cons] at htake ⊢
        rw [List.take_succ_cons, closeComments_cons_of_no_mark hopen' hclose', htake]
        rfl
      · intro t
        have happend' := happend t
        rw [List.cons_append] at happend' ⊢
        rw [List.cons_append, closeComments_cons_of_no_mark hopen' hclose', happend']
        rfl

theorem blockComment_local (h : Rule.blockComment s = some n) :
    n ≤ s.length ∧ Rule.blockComment (s.take n) = some n ∧
      ∀ t, Rule.blockComment (s ++ t) = some n := by
  unfold Rule.blockComment at h
  split at h
  · obtain ⟨m, hm, rfl⟩ := Option.map_eq_some_iff.1 h
    simp [Rule.blockComment, closeComments_local hm]
  · cases h

theorem takeWhile_takeWhile_self {p : Char → Bool} :
    (s.takeWhile p).takeWhile p = s.takeWhile p :=
  List.takeWhile_eq_self_iff.2 fun _ hc => List.mem_takeWhile_imp hc

theorem takeWhile_eq_self_of_length {p : Char → Bool}
    (h : (s.takeWhile p).length = s.length) : s.takeWhile p = s :=
  (List.takeWhile_prefix p).eq_of_length h

/-- A run is no longer in a text whose addition does not go on with it. -/
theorem takeWhile_append_stops {p : Char → Bool} (ht : Text.Stops p t) :
    (s ++ t).takeWhile p = s.takeWhile p := by
  induction s with
  | nil =>
    cases t with
    | nil => rfl
    | cons c t => simp [Text.stops_cons.1 ht]
  | cons c s ih => simp [List.takeWhile_cons, ih]

theorem takeWhile_eq_nil_iff_stops {p : Char → Bool} : s.takeWhile p = [] ↔ Text.Stops p s := by
  cases s with
  | nil => simp
  | cons c s => simp [List.takeWhile_cons]

theorem continues_nameKind (run : Text) : continues (nameKind run) = isNameChar := by
  unfold nameKind
  split_ifs <;> rfl

variable {fresh : Bool} {kind : Kind}

theorem Begins.pos (h : Begins fresh s kind n) : 0 < n := by
  cases h with
  | opener => exact Nat.one_pos
  | closer => exact Nat.one_pos
  | lineComment => omega
  | string => omega
  | symbol => omega
  | blockComment _ hm => exact Rule.blockComment_pos hm
  | name hname => simp [hname]

theorem Begins.weaken (h : Begins fresh s kind n) : Begins true s kind n := by
  cases h with
  | opener hopener => exact .opener hopener
  | closer hcloser => exact .closer hcloser
  | lineComment => exact .lineComment
  | string hm => exact .string hm
  | symbol hne => exact .symbol hne
  | blockComment _ hm => exact .blockComment rfl hm
  | name hname hsemi => exact .name hname hsemi

/-- A token lies within its text and reads the same alone. -/
theorem Begins.take (h : Begins fresh s kind n) :
    n ≤ s.length ∧ Begins true (s.take n) kind n := by
  cases h with
  | opener hopener => exact ⟨by simp, .opener hopener⟩
  | closer hcloser => exact ⟨by simp, .closer hcloser⟩
  | @lineComment s =>
    have hle : (s.takeWhile (!isLineEnd ·)).length ≤ s.length := Text.length_takeWhile_le
    refine ⟨by simp; omega, ?_⟩
    have halone := @Begins.lineComment true (s.takeWhile (!isLineEnd ·))
    rw [takeWhile_takeWhile_self] at halone
    rwa [Nat.add_comm 1, List.take_succ_cons, Text.take_length_takeWhile, Nat.add_comm _ 1]
  | string hm =>
    obtain ⟨hle, htake, -⟩ := closingQuote_local hm
    exact ⟨by simpa using hle, .string htake⟩
  | @symbol s hrun =>
    have hle : (s.takeWhile isNameChar).length ≤ s.length := Text.length_takeWhile_le
    refine ⟨by simpa using hle, ?_⟩
    rw [List.take_succ_cons, Text.take_length_takeWhile]
    have halone := @Begins.symbol true (s.takeWhile isNameChar)
    rw [takeWhile_takeWhile_self] at halone
    exact halone hrun
  | blockComment _ hm =>
    obtain ⟨hle, htake, -⟩ := blockComment_local hm
    refine ⟨hle, ?_⟩
    obtain ⟨k, rfl⟩ := Nat.exists_eq_succ_of_ne_zero (Rule.blockComment_pos hm).ne'
    rw [List.take_succ_cons] at htake ⊢
    exact .blockComment rfl htake
  | @name c s hname hsemi =>
    have hrun : (c :: s).takeWhile isNameChar = c :: s.takeWhile isNameChar := by simp [hname]
    have hself : (c :: s.takeWhile isNameChar).takeWhile isNameChar =
        c :: s.takeWhile isNameChar := by
      rw [← hrun, takeWhile_takeWhile_self]
    refine ⟨Text.length_takeWhile_le, ?_⟩
    have halone := @Begins.name true c (s.takeWhile isNameChar) hname hsemi
    rw [hself] at halone
    rwa [Text.take_length_takeWhile, hrun]

/-- A token reads the same with more text behind, if the addition does not go on with it. -/
theorem Begins.append (h : Begins fresh s kind n)
    (ht : ∀ atom, kind = .atom atom → Text.Stops (continues atom) t) :
    Begins fresh (s ++ t) kind n := by
  cases h with
  | opener hopener => exact .opener hopener
  | closer hcloser => exact .closer hcloser
  | @lineComment s =>
    have hrun : (s ++ t).takeWhile (!isLineEnd ·) = s.takeWhile (!isLineEnd ·) :=
      takeWhile_append_stops (ht _ rfl)
    rw [← hrun]
    exact .lineComment
  | string hm => exact .string ((closingQuote_local hm).2.2 t)
  | @symbol s hne =>
    have hrun : (s ++ t).takeWhile isNameChar = s.takeWhile isNameChar :=
      takeWhile_append_stops (ht _ rfl)
    rw [← hrun] at hne ⊢
    exact .symbol hne
  | blockComment hfresh hm => exact .blockComment hfresh ((blockComment_local hm).2.2 t)
  | @name c s hname hsemi =>
    have hstops := ht _ rfl
    rw [continues_nameKind] at hstops
    have hrun : (c :: s ++ t).takeWhile isNameChar = (c :: s).takeWhile isNameChar :=
      takeWhile_append_stops hstops
    rw [← hrun]
    exact .name hname hsemi

/-- An atom reads the same in every text in which nothing goes on with it. -/
theorem Spelled.begins {kind : AtomKind} (h : Spelled kind s)
    (ht : Text.Stops (continues kind) t) : Begins true (s ++ t) (.atom kind) s.length := by
  apply (begins_of_front? h).append
  intro atom hatom
  cases hatom
  exact ht

theorem Spelled.exists_line (h : Spelled .lineComment s) :
    ∃ u, s = ';' :: u ∧ ∀ c ∈ u, (!isLineEnd c) = true := by
  have hbegins := begins_of_front? h
  generalize hlength : s.length = n, hkind : AtomKind.lineComment = kind at hbegins
  cases hbegins with
  | @lineComment u =>
    refine ⟨u, rfl, List.takeWhile_eq_self_iff.1 (takeWhile_eq_self_of_length ?_)⟩
    rw [List.length_cons] at hlength
    omega
  | name =>
    unfold nameKind at hkind
    split_ifs at hkind
  | _ => cases hkind

/-- In front of a character that ends no line a line comment goes on. -/
theorem Spelled.lineComment_begins (h : Spelled .lineComment s) (hc : isLineEnd c = false) :
    ∃ n, s.length < n ∧ Begins true (s ++ c :: t) (.atom .lineComment) n := by
  obtain ⟨u, rfl, hu⟩ := h.exists_line
  refine ⟨_, ?_, .lineComment⟩
  have hrun : (u ++ c :: t).takeWhile (!isLineEnd ·) = u ++ c :: t.takeWhile (!isLineEnd ·) := by
    rw [List.takeWhile_append_of_pos hu]
    simp [hc]
  change _ < 1 + ((u ++ c :: t).takeWhile (!isLineEnd ·)).length
  rw [hrun]
  simp
  omega

end DesignRecipe.Token
