import DesignRecipe.Proofs.Form.Replay
import DesignRecipe.Proofs.Token.LineBreak

/-!
# Reading text on the next line

What a reader does next is decided by the tokens that are left and by the lists that are open.
Forms that were completed on top level are only kept. So a text that was read to its end does not
change how the text on the next line is read, and the forms of both stand behind one another.
-/
namespace DesignRecipe.Reader

open Token Lexeme Form

section levels

variable {items siblings siblings' : List Form} {enclosing enclosing' : List (List Form)}

/-- Both readers have the same lists open with the same forms in them, but on top level the second
one has `items` in front of the forms of the first. -/
inductive Below (items : List Form) :
    List Form → List (List Form) → List Form → List (List Form) → Prop
  | top {siblings : List Form} : Below items siblings [] (items ++ siblings) []
  | inside {siblings before before' : List Form} {enclosing enclosing' : List (List Form)} :
    Below items before enclosing before' enclosing' →
      Below items siblings (before :: enclosing) siblings (before' :: enclosing')

theorem Below.concat (h : Below items siblings enclosing siblings' enclosing') (f : Form) :
    Below items (siblings ++ [f]) enclosing (siblings' ++ [f]) enclosing' := by
  cases h with
  | top =>
    rw [List.append_assoc]
    exact .top
  | inside h => exact .inside h

theorem Below.eq_nil_iff (h : Below items siblings enclosing siblings' enclosing') :
    enclosing' = [] ↔ enclosing = [] := by
  cases h with
  | top => rfl
  | inside => simp

/-- With all lists closed where they are, the forms on top level have `items` in front. -/
theorem Below.foldl_eq (h : Below items siblings enclosing siblings' enclosing') :
    enclosing'.foldl (fun inner before => before ++ [.list inner]) siblings' =
      items ++ enclosing.foldl (fun inner before => before ++ [.list inner]) siblings := by
  induction enclosing generalizing siblings siblings' enclosing' with
  | nil =>
    cases h
    rfl
  | cons before enclosing ih =>
    cases h with
    | inside h =>
      rw [List.foldl_cons, List.foldl_cons]
      exact ih (h.concat (.list siblings))

end levels

/-- The second reader has the same tokens in front of it as the first one and holds the same forms,
but behind `items`. -/
structure Follows (items : List Form) (r s : Reader) : Prop where
  status : s.status = r.status
  marks : (stream s.rest).map mark = (stream r.rest).map mark
  levels : Below items r.siblings r.enclosing s.siblings s.enclosing

theorem stray_iff {r : Reader} :
    r.Stray ↔ ((stream r.rest).map mark).head? = some .closer ∧ r.enclosing = [] := by
  cases hstream : stream r.rest with
  | nil => simp [Stray, hstream]
  | cons x xs => simp [Stray, hstream, mark_eq_closer_iff]

namespace Follows

variable {items : List Form} {r s : Reader}

theorem stray_iff (h : Follows items r s) : s.Stray ↔ r.Stray := by
  rw [Reader.stray_iff, Reader.stray_iff, h.marks, h.levels.eq_nil_iff]

theorem consume {rest rest' : Text} (h : Follows items r s) (m : Mark)
    (hm : m = .closer → r.enclosing ≠ [])
    (hrest : (stream rest').map mark = (stream rest).map mark) :
    Follows items (r.consume m rest) (s.consume m rest') := by
  obtain ⟨hstatus, -, hlevels⟩ := h
  obtain ⟨text, siblings, enclosing, status⟩ := r
  obtain ⟨text', siblings', enclosing', status'⟩ := s
  cases m with
  | opener => exact ⟨hstatus, hrest, .inside hlevels⟩
  | atom kind text => exact ⟨hstatus, hrest, hlevels.concat _⟩
  | closer =>
    cases hlevels with
    | top => exact absurd rfl (hm rfl)
    | inside hlevels => exact ⟨hstatus, hrest, hlevels.concat _⟩

theorem step (h : Follows items r s) : Follows items r.step s.step := by
  by_cases hstray : r.Stray
  · rw [step_of_stray hstray, step_of_stray (h.stray_iff.2 hstray)]
    exact ⟨rfl, h.marks, h.levels⟩
  · have hstray' : ¬s.Stray := mt h.stray_iff.1 hstray
    have hmarks := h.marks
    cases hr : stream r.rest with
    | nil =>
      have hs : stream s.rest = [] := by simpa [hr] using hmarks
      rw [step_of_stream_nil hr, step_of_stream_nil hs]
      refine ⟨?_, h.marks, h.levels⟩
      simp [List.isEmpty_iff, h.levels.eq_nil_iff]
    | cons x xs =>
      rw [hr, List.map_cons, List.map_eq_cons_iff] at hmarks
      obtain ⟨y, ys, hs, hmark, hothers⟩ := hmarks
      obtain ⟨rest, -, rfl, hstep⟩ := step_of_stream_cons hr hstray
      obtain ⟨rest', -, rfl, hstep'⟩ := step_of_stream_cons hs hstray'
      rw [hstep, hstep', hmark]
      apply h.consume x.mark _ hothers
      intro hclose htop
      exact hstray ⟨x, _, hr, mark_eq_closer_iff.1 hclose, htop⟩

theorem run (h : Follows items r s) : Follows items r.run s.run := by
  fun_induction Reader.run r generalizing s with
  | case1 r hr _ ih =>
    rw [← run_step (h.status.trans hr)]
    exact ih h.step
  | case2 r hr =>
    rw [run_of_ended (h.status ▸ hr)]
    exact h

theorem forms_eq (h : Follows items r s) : s.forms = items ++ r.forms := h.levels.foldl_eq

end Follows

variable {a : Text}

/-- If a text was read to its end and nothing that was skipped waits to be closed, the text on the
next line leaves it as it is, and is read as it would be alone. -/
theorem read_append_lineFeed (h : (read a).status = .complete)
    (hgaps : ∀ x ∈ stream a, Plain x.gap) (hrest : Plain (read a).rest) (b : Text) :
    (read (a ++ '\n' :: b)).status = (read b).status ∧
      (read (a ++ '\n' :: b)).forms = (read a).forms ++ (read b).forms := by
  have htext : a = (stream a).flatMap whole ++ (read a).rest := by
    obtain ⟨xs, r, hr, ⟨rfl, -, hread⟩ | ⟨-, -, hread⟩ | ⟨x, ys, -, -, -, -, hread⟩⟩ :=
      read_cases a
    · rw [hread]
      exact hr.text_eq
    · simp [hread] at h
    · simp [hread] at h
  have hmarks := map_mark_stream_append_lineFeed htext hgaps hrest b
  rw [← writeAll_forms_of_complete h] at hmarks
  obtain ⟨rest, hbehind, hrun⟩ := run_of_writeAll (read a).forms
    (r := ofText (a ++ '\n' :: b)) rfl hmarks
  have hfollows : Follows (read a).forms (ofText b)
      { ofText (a ++ '\n' :: b) with rest, siblings := (read a).forms } := by
    refine ⟨rfl, hbehind, ?_⟩
    have htop : Below (read a).forms [] [] ((read a).forms ++ []) [] := .top
    rwa [List.append_nil] at htop
  have hread := hfollows.run
  rw [read, hrun]
  exact ⟨hread.status, hread.forms_eq⟩

/-- The mark of a block comment in a string and an apostrophe at the end do no harm to the list and
to the stray bracket on the next line. -/
theorem read_append_lineFeed_of_stray :
    (read "(f \"#|\") '\nx) |#".toList).status = .strayCloser ∧
      (read "(f \"#|\") '\nx) |#".toList).forms =
        (read "(f \"#|\") '".toList).forms ++ (read "x) |#".toList).forms := by
  have hcomplete : (read "(f \"#|\") '".toList).status = .complete := by cbv
  have hgaps : (stream "(f \"#|\") '".toList).map gap = [[], [], [' '], []] := by cbv
  have hrest : (read "(f \"#|\") '".toList).rest = [' ', '\''] := by cbv
  have hplain : ∀ x ∈ stream "(f \"#|\") '".toList, Plain x.gap := by
    rw [← List.forall_mem_map (P := Plain), hgaps]
    decide
  have hboth := read_append_lineFeed hcomplete hplain (by rw [hrest]; decide) "x) |#".toList
  have hstray : (read "x) |#".toList).status = .strayCloser := by cbv
  rw [hstray] at hboth
  exact hboth

end DesignRecipe.Reader
