import DesignRecipe.Proofs.Form.Brackets

/-!
# Nothing is lost

What a reader has consumed and what is left of the text tile it: every consumed token stands in
the text behind a gap of fillers. At the end only fillers are left, or fillers and a closing
bracket without a list to close.
-/
namespace DesignRecipe

open Token

namespace Token

/-- The characters that no token may lose: those of names, brackets and the semicolon. -/
def isMeaningful (c : Char) : Bool := isNameChar c || isOpener c || isCloser c || c == ';'

/-- A text in which there is nothing to read. -/
def Skippable (s : Text) : Prop := ∀ c ∈ s, isFiller c = true

theorem isMeaningful_eq_not_isFiller (c : Char) : isMeaningful c = !isFiller c := by
  have hsemi : c = ';' → isNameChar c = true := by
    rintro rfl
    decide
  have hfiller := isFiller_iff (c := c)
  unfold isMeaningful
  by_cases h : isFiller c = true
  · obtain ⟨hname, hopener, hcloser⟩ := hfiller.1 h
    have hne : c ≠ ';' := by
      intro hc
      simp [hsemi hc] at hname
    simp [h, hname, hopener, hcloser, hne]
  · simp only [Bool.not_eq_true] at h
    rw [h] at hfiller ⊢
    by_contra hnone
    simp_all

theorem Skippable.filter_eq_nil {s : Text} (h : Skippable s) : s.filter isMeaningful = [] := by
  rw [List.filter_eq_nil_iff]
  intro c hc
  simp [isMeaningful_eq_not_isFiller, h c hc]

end Token

namespace Lexeme

variable {x : Lexeme}

theorem Sound.text_ne_nil (h : x.Sound) : x.text ≠ [] :=
  List.length_pos_iff.1 h.text.pos

theorem Sound.filter_whole (h : x.Sound) :
    x.whole.filter isMeaningful = x.text.filter isMeaningful := by
  rw [whole, List.filter_append, Skippable.filter_eq_nil h.gap, List.nil_append]

theorem Sound.exists_closer (h : x.Sound) (hkind : x.kind = .closer) :
    ∃ c s, (c = ')' ∨ c = ']') ∧ x.text = c :: s := by
  have hbegins := h.text
  rw [hkind] at hbegins
  generalize x.text.length = n at hbegins
  generalize x.text = text at hbegins ⊢
  cases hbegins with
  | closer hcloser => exact ⟨_, _, closer_iff.1 hcloser, rfl⟩

/-- Between tokens nothing but fillers is skipped. -/
theorem filter_flatMap_whole {xs : List Lexeme} (h : ∀ x ∈ xs, x.Sound) :
    (xs.flatMap whole).filter isMeaningful = (xs.flatMap text).filter isMeaningful := by
  induction xs with
  | nil => rfl
  | cons x xs ih =>
    have hx := (h x (by simp)).filter_whole
    have hxs := ih fun y hy => h y (List.mem_cons_of_mem x hy)
    rw [List.flatMap_cons, List.flatMap_cons, List.filter_append, List.filter_append, hx, hxs]

end Lexeme

namespace Reader

open Lexeme

variable {code : Text} {xs : List Lexeme} {r : Reader}

/-- The last step leaves the text and the forms as they are. -/
theorem step_eq_of_atEnd (h : r.AtEnd) : r.step = { r with status := r.step.status } := by
  rcases h with hnil | hstray
  · rw [step_of_stream_nil hnil]
  · rw [step_of_stray hstray]

theorem HasRead.sound (h : HasRead code xs r) : ∀ x ∈ xs, x.Sound := by
  intro x hx
  have hmem : x ∈ stream code := by
    rw [h.stream_eq]
    exact List.mem_append_left _ hx
  exact sound_of_mem_stream hmem

theorem Stray.exists_rest (h : r.Stray) :
    ∃ gap c s, Skippable gap ∧ (c = ')' ∨ c = ']') ∧ r.rest = gap ++ c :: s := by
  obtain ⟨x, xs, hstream, hkind, -⟩ := h
  have hmem : x ∈ stream r.rest := by simp [hstream]
  have hsound := sound_of_mem_stream hmem
  obtain ⟨t, -, rfl, -⟩ := exists_of_stream_cons hstream
  obtain ⟨c, s, hc, htext⟩ := hsound.exists_closer hkind
  refine ⟨(ofToken r.rest t).gap, c, s ++ r.rest.drop t.span.stop, hsound.gap, hc, ?_⟩
  have hwhole := whole_ofToken r.rest t
  rw [whole, htext] at hwhole
  simpa using hwhole.symm

/-- A reading that has come to its end has left nothing behind that it could have read, unless a
closing bracket stood in its way. -/
theorem rest_step_of_atEnd (h : r.AtEnd) :
    (r.step.status = .complete ∨ r.step.status = .unclosed → Skippable r.step.rest) ∧
      (r.step.status = .strayCloser →
        ∃ gap c s, Skippable gap ∧ (c = ')' ∨ c = ']') ∧ r.step.rest = gap ++ c :: s) := by
  rcases h with hnil | hstray
  · have hrest := isFiller_of_stream_eq_nil hnil
    rw [step_of_stream_nil hnil]
    refine ⟨fun _ => hrest, ?_⟩
    dsimp only
    split_ifs <;> simp
  · rw [step_of_stray hstray]
    exact ⟨by simp, fun _ => hstray.exists_rest⟩

/-- The number of steps to the end is bounded by the text left. -/
theorem exists_advances_run (r : Reader) : ∃ k ≤ r.fuel, advances k r = .ok r.run := by
  fun_induction run r with
  | case1 r hr _ ih =>
    obtain ⟨k, hk, hrun⟩ := ih
    have hlt := fuel_step_lt hr
    refine ⟨k + 1, by omega, ?_⟩
    rw [advances_succ_of_reading hr, hrun]
  | case2 r hr => exact ⟨0, Nat.zero_le _, rfl⟩

/-- The consumed tokens `xs` tile the text up to what is left of it. -/
structure Tiles (code : Text) (xs : List Lexeme) (r : Reader) : Prop where
  consumed : xs <+: stream code
  text_eq : code = xs.flatMap whole ++ r.rest
  written_eq : r.written = xs.map mark
  text_ne : ∀ x ∈ xs, x.text ≠ []
  gap : ∀ x ∈ xs, Skippable x.gap
  meaning_eq : code.filter isMeaningful = (xs.flatMap text ++ r.rest).filter isMeaningful

theorem HasRead.tiles (h : HasRead code xs r) : Tiles code xs r := by
  refine ⟨⟨_, h.stream_eq.symm⟩, h.text_eq, h.written_eq, ?_, ?_, ?_⟩
  · intro x hx
    exact (h.sound x hx).text_ne_nil
  · intro x hx
    exact (h.sound x hx).gap
  · conv_lhs => rw [h.text_eq]
    rw [List.filter_append, List.filter_append, filter_flatMap_whole h.sound]

theorem Tiles.of_status {status : Status} (h : Tiles code xs r) :
    Tiles code xs { r with status } :=
  ⟨h.consumed, h.text_eq, h.written_eq, h.text_ne, h.gap, h.meaning_eq⟩

/-- At every point of every reading the text is tiled, and every reading comes to an end. -/
theorem advances_tiles (code : Text) :
    (∀ k r, advances k (ofText code) = .ok r →
      (∃ xs, Tiles code xs r ∧ k = xs.length + if r.status = .reading then 0 else 1) ∧
      (r.status = .complete ∨ r.status = .unclosed → Skippable r.rest) ∧
      (r.status = .strayCloser →
        ∃ gap c s, Skippable gap ∧ (c = ')' ∨ c = ']') ∧ r.rest = gap ++ c :: s)) ∧
    ∃ k ≤ code.length + 1, advances k (ofText code) = .ok (read code) ∧
      (read code).status ≠ .reading := by
  constructor
  · intro k r hk
    obtain ⟨xs, ⟨rfl, h⟩ | ⟨rfl, q, h, hend, rfl⟩⟩ := (hasRead_ofText code).advances_cases hk
    · have hreading := h.reading
      exact ⟨⟨xs, h.tiles, by simp [hreading]⟩, by simp [hreading], by simp [hreading]⟩
    · refine ⟨⟨xs, ?_, by simp [status_step_of_atEnd hend]⟩, rest_step_of_atEnd hend⟩
      rw [step_eq_of_atEnd hend]
      exact h.tiles.of_status
  · obtain ⟨k, hk, hrun⟩ := exists_advances_run (ofText code)
    exact ⟨k, hk, hrun, status_run_ne _⟩

/-- The reading of `a , |)`, which ends at the closing bracket, and that of a quote alone. -/
theorem advances_tiles_of_stray :
    (∃ r, advances 2 (ofText "a , |)".toList) = .ok r ∧ r.status = .strayCloser ∧
      ∃ gap c s, Skippable gap ∧ (c = ')' ∨ c = ']') ∧ r.rest = gap ++ c :: s) ∧
    ∃ r, advances 1 (ofText "\"".toList) = .ok r ∧ r.status = .complete ∧ Skippable r.rest := by
  have hstray := (advances_tiles "a , |)".toList).1
  have hquote := (advances_tiles "\"".toList).1
  exact ⟨⟨_, rfl, rfl, (hstray 2 _ rfl).2.2 rfl⟩, ⟨_, rfl, rfl, (hquote 1 _ rfl).2.1 (.inl rfl)⟩⟩

end Reader

end DesignRecipe
