import DesignRecipe.Proofs.Form.Progress

/-!
# Brackets

Reading is bracket matching over the token stream. As long as it goes on, the forms written
out are the tokens consumed, and the open lists are the brackets that wait for their partner.
How it ends is told by the stream alone.
-/
namespace DesignRecipe.Reader

open Token Lexeme Form

/-- Goes on by `k` tokens, unless the reading ends before. -/
def advances : (k : ℕ) → Reader → Except Ended Reader
  | 0, r => .ok r
  | k + 1, r => r.advance >>= advances k

variable {code : Text} {xs : List Lexeme} {r : Reader}

theorem advance_of_reading (h : r.status = .reading) : r.advance = .ok r.step := by
  simp [advance, h]

theorem advances_succ_of_reading (h : r.status = .reading) (k : ℕ) :
    advances (k + 1) r = advances k r.step := by
  rw [advances, advance_of_reading h]
  rfl

theorem advances_of_ended (h : r.status ≠ .reading) (k : ℕ) :
    advances (k + 1) r = .error ⟨r.status⟩ := by
  rw [advances, advance, if_neg h]
  rfl

/-- A step is the consumption of one token, or the last. -/
theorem HasRead.advances_cases {s : Reader} {k : ℕ} (h : HasRead code xs r)
    (hk : advances k r = .ok s) :
    ∃ ys, (ys.length = k ∧ HasRead code (xs ++ ys) s) ∨
      (ys.length + 1 = k ∧ ∃ q, HasRead code (xs ++ ys) q ∧ q.AtEnd ∧ s = q.step) := by
  induction k generalizing xs r with
  | zero =>
    cases hk
    exact ⟨[], .inl ⟨rfl, by simpa using h⟩⟩
  | succ k ih =>
    rw [advances_succ_of_reading h.reading] at hk
    rcases h.step_or_atEnd with hend | ⟨x, hx⟩
    · cases k with
      | zero =>
        cases hk
        exact ⟨[], .inr ⟨rfl, r, by simpa using h, hend, rfl⟩⟩
      | succ k =>
        rw [advances_of_ended (status_step_of_atEnd hend)] at hk
        cases hk
    · obtain ⟨ys, hys⟩ := ih hx hk
      exact ⟨x :: ys, by simpa using hys⟩

/-- A reader under way after `k` steps has consumed `k` tokens. -/
theorem HasRead.of_advances {s : Reader} {k : ℕ} (h : HasRead code xs r)
    (hk : advances k r = .ok s) (hs : s.status = .reading) :
    ∃ ys, ys.length = k ∧ HasRead code (xs ++ ys) s := by
  obtain ⟨ys, hys | ⟨-, q, -, hend, rfl⟩⟩ := h.advances_cases hk
  · exact ⟨ys, hys⟩
  · exact absurd hs (status_step_of_atEnd hend)

/-- Tokens that close no more lists than are open are consumed one by one. -/
theorem HasRead.exists_advances {ys zs : List Lexeme} (h : HasRead code xs r)
    (hstream : stream r.rest = ys ++ zs) (hnested : Nested (xs ++ ys)) :
    ∃ s, advances ys.length r = .ok s ∧ HasRead code (xs ++ ys) s := by
  induction ys generalizing xs r with
  | nil => exact ⟨r, rfl, by simpa using h⟩
  | cons y ys ih =>
    have hstray : ¬r.Stray := by
      rintro ⟨x, us, hx, hkind, htop⟩
      have hsplit := hnested (xs ++ [y]) ⟨ys, by simp⟩
      have hdepth := h.depth_eq
      rw [hx] at hstream
      obtain rfl : x = y := (List.cons.inj hstream).1
      rw [openers_append, closers_append, openers_singleton, closers_singleton, hkind] at hsplit
      simp [htop] at hdepth hsplit
      omega
    have hstep := h.step hstream hstray
    have hrest : stream r.step.rest = ys ++ zs := by
      have hold := h.stream_eq
      have hnew := hstep.stream_eq
      rw [hstream] at hold
      rw [hold, List.append_assoc] at hnew
      simpa using hnew.symm
    obtain ⟨s, hs, hread⟩ := ih hstep hrest (by simpa using hnested)
    refine ⟨s, ?_, by simpa using hread⟩
    rw [List.length_cons, advances_succ_of_reading h.reading, hs]

/-- The state before the last step, and what that step makes of it. -/
theorem read_cases (code : Text) :
    ∃ xs r, HasRead code xs r ∧
      ((stream code = xs ∧ r.enclosing = [] ∧ read code = { r with status := .complete }) ∨
        (stream code = xs ∧ r.enclosing ≠ [] ∧ read code = { r with status := .unclosed }) ∨
        ∃ x ys, stream code = xs ++ x :: ys ∧ stream r.rest = x :: ys ∧ x.kind = .closer ∧
          r.enclosing = [] ∧ read code = { r with status := .strayCloser }) := by
  obtain ⟨xs, r, h, hend, hread⟩ := exists_read code
  refine ⟨xs, r, h, ?_⟩
  have hstream := h.stream_eq
  rcases hend with hnil | hstray
  · rw [hnil, List.append_nil] at hstream
    rw [hread, step_of_stream_nil hnil]
    cases henclosing : r.enclosing with
    | nil => exact .inl ⟨hstream, rfl, by simp⟩
    | cons before enclosing => exact .inr (.inl ⟨hstream, by simp, by simp⟩)
  · rw [hread, step_of_stray hstray]
    obtain ⟨x, ys, hx, hkind, htop⟩ := hstray
    rw [hx] at hstream
    exact .inr (.inr ⟨x, ys, hstream, hx, hkind, htop, rfl⟩)

theorem HasRead.length_enclosing_pos_iff (h : HasRead code xs r) :
    r.enclosing ≠ [] ↔ closers xs < openers xs := by
  have hdepth := h.depth_eq
  rw [← List.length_pos_iff]
  omega

theorem overclosed_concat {x : Lexeme} (h : HasRead code xs r) (hkind : x.kind = .closer)
    (htop : r.enclosing = []) : openers (xs ++ [x]) < closers (xs ++ [x]) := by
  have hdepth := h.depth_eq
  rw [openers_append, closers_append, openers_singleton, closers_singleton, hkind]
  simp [htop] at hdepth ⊢
  omega

/-- How a reading ends depends on the brackets of the stream only. -/
theorem status_read (code : Text) :
    ((read code).status = .strayCloser ↔ ¬Nested (stream code)) ∧
      ((read code).status = .complete ↔
        Nested (stream code) ∧ openers (stream code) = closers (stream code)) ∧
      ((read code).status = .unclosed ↔
        Nested (stream code) ∧ closers (stream code) < openers (stream code)) := by
  obtain ⟨xs, r, h, ⟨rfl, htop, hread⟩ | ⟨rfl, hopen, hread⟩ |
    ⟨x, ys, hstream, -, hkind, htop, hread⟩⟩ := read_cases code
  · have hdepth := h.depth_eq
    have hnested := h.nested
    simp [htop] at hdepth
    simp [hread, hnested, hdepth]
  · have hdepth := h.length_enclosing_pos_iff.1 hopen
    have hnested := h.nested
    simp [hread, hnested, hdepth, hdepth.ne']
  · have hover := overclosed_concat h hkind htop
    have hnested : ¬Nested (stream code) := by
      intro hall
      have hle := hall (xs ++ [x]) ⟨ys, by simp [hstream]⟩
      omega
    simp [hread, hnested]

theorem HasRead.take_eq (h : HasRead code xs r) : (stream code).take xs.length = xs := by
  rw [h.stream_eq, List.take_left]

/-- The forms of a reading that was not cut short are all tokens of the text. -/
theorem written_read (h : (read code).status ≠ .strayCloser) :
    (read code).written = (stream code).map mark := by
  obtain ⟨xs, r, hr, ⟨rfl, -, hread⟩ | ⟨rfl, -, hread⟩ | ⟨x, ys, -, -, -, -, hread⟩⟩ :=
    read_cases code
  · rw [hread, ← hr.written_eq]
    rfl
  · rw [hread, ← hr.written_eq]
    rfl
  · exact absurd (by rw [hread]) h

/-- A reading ends at a stray closer exactly behind the first part of the stream that closes more
lists than it opens, and leaves the text from the end of the token before. -/
theorem read_of_strayCloser (h : (read code).status = .strayCloser) :
    ∃ xs x ys, stream code = xs ++ x :: ys ∧ Nested xs ∧
      openers (xs ++ [x]) < closers (xs ++ [x]) ∧ writeAll (read code).forms = xs.map mark ∧
      (read code).enclosing = [] ∧ code = xs.flatMap whole ++ (read code).rest ∧
      stream (read code).rest = x :: ys := by
  obtain ⟨xs, r, hr, ⟨-, -, hread⟩ | ⟨-, -, hread⟩ | ⟨x, ys, hstream, hrest, hkind, htop, hread⟩⟩ :=
    read_cases code
  · simp [hread] at h
  · simp [hread] at h
  · refine ⟨xs, x, ys, hstream, hr.nested, overclosed_concat hr hkind htop, ?_, ?_, ?_, ?_⟩
    · have hwritten := hr.written_eq
      rw [written, htop] at hwritten
      rw [hread, ← hwritten]
      rfl
    · rw [hread, htop]
    · rw [hread]
      exact hr.text_eq
    · rw [hread, hrest]

/-- Reading is bracket matching over the stream of tokens. -/
theorem reading_matches_brackets (code : Text) :
    (∀ k r, advances k (ofText code) = .ok r → r.status = .reading →
      k ≤ (stream code).length ∧ r.written = ((stream code).take k).map mark ∧
        closers ((stream code).take k) + r.enclosing.length = openers ((stream code).take k)) ∧
    (∀ k, (∃ r, advances k (ofText code) = .ok r ∧ r.status = .reading) ↔
      k ≤ (stream code).length ∧ Nested ((stream code).take k)) ∧
    ((read code).status = .strayCloser ↔ ∃ p, p <+: stream code ∧ openers p < closers p) ∧
    ((read code).status = .strayCloser →
      ∃ xs x ys, stream code = xs ++ x :: ys ∧ Nested xs ∧
        openers (xs ++ [x]) < closers (xs ++ [x]) ∧ writeAll (read code).forms = xs.map mark ∧
        (read code).enclosing = [] ∧ code = xs.flatMap whole ++ (read code).rest ∧
        stream (read code).rest = x :: ys) ∧
    ((read code).status = .complete ↔
      Nested (stream code) ∧ openers (stream code) = closers (stream code)) ∧
    ((read code).status = .unclosed ↔
      Nested (stream code) ∧ closers (stream code) < openers (stream code)) ∧
    ((read code).status ≠ .strayCloser → (read code).written = (stream code).map mark) := by
  obtain ⟨hstray, hcomplete, hunclosed⟩ := status_read code
  refine ⟨?_, ?_, ?_, read_of_strayCloser, hcomplete, hunclosed, written_read⟩
  · intro k r hk hr
    obtain ⟨xs, rfl, h⟩ := (hasRead_ofText code).of_advances hk hr
    rw [List.nil_append] at h
    rw [h.take_eq]
    refine ⟨?_, h.written_eq, ?_⟩
    · rw [h.stream_eq, List.length_append]
      exact Nat.le_add_right _ _
    · rw [h.depth_eq]
  · intro k
    constructor
    · rintro ⟨r, hk, hr⟩
      obtain ⟨xs, rfl, h⟩ := (hasRead_ofText code).of_advances hk hr
      rw [List.nil_append] at h
      rw [h.take_eq]
      refine ⟨?_, h.nested⟩
      rw [h.stream_eq, List.length_append]
      exact Nat.le_add_right _ _
    · rintro ⟨hk, hnested⟩
      have hsplit : stream (ofText code).rest = (stream code).take k ++ (stream code).drop k :=
        (List.take_append_drop k _).symm
      obtain ⟨r, hr, h⟩ := (hasRead_ofText code).exists_advances hsplit hnested
      rw [List.length_take_of_le hk] at hr
      exact ⟨r, hr, h.reading⟩
  · rw [hstray, Nested]
    push Not
    rfl

/-- The reading of `(a])b` after two tokens and at its end, and the end of the reading of `(a`. -/
theorem reading_matches_brackets_of_stray :
    (∃ r, advances 2 (ofText "(a])b".toList) = .ok r ∧ r.enclosing.length = 1 ∧
      closers ((stream "(a])b".toList).take 2) + 1 = openers ((stream "(a])b".toList).take 2)) ∧
    (read "(a])b".toList).status = .strayCloser ∧ (read "(a])b".toList).enclosing = [] ∧
    (read "(a".toList).status = .unclosed ∧
    (read "(a".toList).written = (stream "(a".toList).map mark := by
  obtain ⟨hunderway, -, -, hstray, -⟩ := reading_matches_brackets "(a])b".toList
  obtain ⟨-, -, -, -, -, -, hwritten⟩ := reading_matches_brackets "(a".toList
  have hend : (read "(a])b".toList).status = .strayCloser := by cbv
  have hopen : (read "(a".toList).status = .unclosed := by cbv
  have hne : (read "(a".toList).status ≠ .strayCloser := by rw [hopen]; decide
  refine ⟨⟨_, rfl, rfl, (hunderway 2 _ rfl rfl).2.2⟩, hend, ?_, hopen, hwritten hne⟩
  obtain ⟨xs, x, ys, -, -, -, -, htop, -⟩ := hstray hend
  exact htop

end DesignRecipe.Reader
