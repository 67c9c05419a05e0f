import DesignRecipe.Proofs.Token.LineEnding

/-!
# The search for comments

The search for a block comment finds the comment at the first opening mark of a text, which is at
most one, and finds nothing exactly if the text behind that mark does not begin with a comment.
-/
namespace DesignRecipe.Token

/-- The first opening mark of the text stands at the position. -/
def OpensFirstAt (code : Text) (i : ℕ) : Prop :=
  openingMark <+: code.drop i ∧ ∀ j < i, ¬openingMark <+: code.drop j

variable {c : Char} {s code : Text}

/-! ### The first opening mark -/

theorem opensComment_iff : opensComment s = true ↔ openingMark <+: s := by
  constructor
  · intro h
    unfold opensComment at h
    split at h
    · exact ⟨_, rfl⟩
    · cases h
  · rintro ⟨t, rfl⟩
    rfl

theorem opensFirstAt_of_mark (h : openingMark <+: s) (i : ℕ) : OpensFirstAt s i ↔ i = 0 := by
  constructor
  · rintro ⟨-, hfirst⟩
    by_contra hi
    exact hfirst 0 (Nat.pos_of_ne_zero hi) h
  · rintro rfl
    exact ⟨h, by simp⟩

theorem opensFirstAt_cons (h : ¬openingMark <+: c :: s) (i : ℕ) :
    OpensFirstAt (c :: s) i ↔ ∃ k, i = k + 1 ∧ OpensFirstAt s k := by
  constructor
  · rintro ⟨hmark, hfirst⟩
    cases i with
    | zero => exact absurd hmark h
    | succ k => exact ⟨k, rfl, hmark, fun j hj => hfirst (j + 1) (Nat.succ_lt_succ hj)⟩
  · rintro ⟨k, rfl, hmark, hfirst⟩
    refine ⟨hmark, ?_⟩
    intro j hj
    cases j with
    | zero => exact h
    | succ j => exact hfirst j (Nat.lt_of_succ_lt_succ hj)

theorem firstBlockComment_eq_some_iff {span : Span} :
    firstBlockComment code = some span ↔
      OpensFirstAt code span.index ∧
        Rule.blockComment (code.drop span.index) = some span.length := by
  induction code generalizing span with
  | nil => simp [firstBlockComment, OpensFirstAt, openingMark]
  | cons c s ih =>
    obtain ⟨index, length⟩ := span
    by_cases hmark : openingMark <+: c :: s
    · rw [firstBlockComment_of_opensComment (opensComment_iff.2 hmark),
        opensFirstAt_of_mark hmark, Option.map_eq_some_iff]
      constructor
      · rintro ⟨n, hn, he⟩
        cases he
        exact ⟨rfl, hn⟩
      · rintro ⟨rfl, hn⟩
        exact ⟨length, hn, rfl⟩
    · have hnone : opensComment (c :: s) = false := by
        simpa using mt opensComment_iff.1 hmark
      rw [firstBlockComment_cons hnone, opensFirstAt_cons hmark, Option.map_eq_some_iff]
      constructor
      · rintro ⟨t, ht, he⟩
        cases he
        obtain ⟨hfirst, hlength⟩ := ih.1 ht
        exact ⟨⟨t.index, rfl, hfirst⟩, hlength⟩
      · rintro ⟨⟨k, rfl, hfirst⟩, hlength⟩
        exact ⟨⟨k, length⟩, ih.2 ⟨hfirst, hlength⟩, rfl⟩

/-- The search for a block comment finds a span exactly if the text from its first opening mark on
begins with a comment. The span then is that comment, and no other comment begins there. -/
theorem search_finds_nested_comment (code : Text) :
    ((Kind.search (.atom .blockComment) code).isSome = true ↔
      ∃ i, OpensFirstAt code i ∧ ∃ p, p <+: code.drop i ∧ IsComment p) ∧
    ∀ span, Kind.search (.atom .blockComment) code = some span →
      OpensFirstAt code span.index ∧ span.stop ≤ code.length ∧ IsComment (span.text code) ∧
        ∀ p, p <+: code.drop span.index → IsComment p → p = span.text code := by
  change ((firstBlockComment code).isSome = true ↔ _) ∧
    ∀ span, firstBlockComment code = some span → _
  constructor
  · rw [Option.isSome_iff_exists]
    constructor
    · rintro ⟨span, hspan⟩
      obtain ⟨hfirst, hlength⟩ := firstBlockComment_eq_some_iff.1 hspan
      exact ⟨span.index, hfirst, _, List.take_prefix _ _, isComment_of_blockComment hlength⟩
    · rintro ⟨i, hfirst, p, ⟨t, ht⟩, hp⟩
      refine ⟨⟨i, p.length⟩, firstBlockComment_eq_some_iff.2 ⟨hfirst, ?_⟩⟩
      dsimp only
      rw [← ht]
      exact blockComment_of_isComment hp t
  · intro span hspan
    obtain ⟨hfirst, hlength⟩ := firstBlockComment_eq_some_iff.1 hspan
    have hcomment : IsComment (span.text code) := isComment_of_blockComment hlength
    refine ⟨hfirst, ?_, hcomment, ?_⟩
    · have hle := (blockComment_local hlength).1
      have hpos := Rule.blockComment_pos hlength
      rw [List.length_drop] at hle
      rw [Span.stop]
      omega
    · intro p hprefix hp
      exact hp.eq_of_prefix hcomment hprefix (List.take_prefix _ _)

end DesignRecipe.Token
