import DesignRecipe.Proofs.Form.Brackets

/-!
# Reading what was written

Forms can be told from the tokens they are written with: a reader that finds the tokens of a
form in front of it takes in that form. So a text is read as some forms without a remainder
exactly if its tokens are theirs.
-/
namespace DesignRecipe.Reader

open Token Lexeme Form

variable {r : Reader} {ms : List Mark}

theorem run_of_marks_cons {m : Mark} (hr : r.status = .reading)
    (h : (stream r.rest).map mark = m :: ms) (hm : m = .closer → r.enclosing ≠ []) :
    ∃ rest, (stream rest).map mark = ms ∧ r.run = (r.consume m rest).run := by
  obtain ⟨x, xs, hstream, rfl, rfl⟩ := List.map_eq_cons_iff.1 h
  have hstray : ¬r.Stray := by
    rintro ⟨y, ys, hy, hkind, htop⟩
    rw [hstream] at hy
    obtain rfl := (List.cons.inj hy).1
    exact hm (mark_eq_closer_iff.2 hkind) htop
  obtain ⟨rest, -, rfl, hstep⟩ := step_of_stream_cons hstream hstray
  refine ⟨rest, rfl, ?_⟩
  rw [← run_step hr, hstep]

mutual

/-- A reader takes in a form whose tokens come next. -/
theorem run_of_write (f : Form) {r : Reader} {ms : List Mark} (hr : r.status = .reading)
    (h : (stream r.rest).map mark = f.write ++ ms) :
    ∃ rest, (stream rest).map mark = ms ∧
      r.run = run { r with rest, siblings := r.siblings ++ [f] } := by
  cases f with
  | atom kind text => exact run_of_marks_cons hr h nofun
  | list items =>
    rw [write, List.cons_append] at h
    obtain ⟨rest, hrest, hopen⟩ := run_of_marks_cons hr h nofun
    have hitems : (stream (r.consume .opener rest).rest).map mark =
        writeAll items ++ .closer :: ms := by
      simpa [consume] using hrest
    obtain ⟨rest', hrest', hinside⟩ := run_of_writeAll items (r := r.consume .opener rest) hr hitems
    obtain ⟨rest'', hrest'', hclose⟩ := run_of_marks_cons
      (r := { r.consume .opener rest with rest := rest', siblings := items }) hr hrest' nofun
    refine ⟨rest'', hrest'', ?_⟩
    rw [hopen, hinside]
    exact hclose

theorem run_of_writeAll (items : List Form) {r : Reader} {ms : List Mark}
    (hr : r.status = .reading) (h : (stream r.rest).map mark = writeAll items ++ ms) :
    ∃ rest, (stream rest).map mark = ms ∧
      r.run = run { r with rest, siblings := r.siblings ++ items } := by
  cases items with
  | nil => exact ⟨r.rest, h, by simp⟩
  | cons f items =>
    rw [writeAll, List.append_assoc] at h
    obtain ⟨rest, hrest, hfirst⟩ := run_of_write f hr h
    obtain ⟨rest', hrest', hothers⟩ := run_of_writeAll items
      (r := { r with rest, siblings := r.siblings ++ [f] }) hr hrest
    refine ⟨rest', hrest', ?_⟩
    rw [hfirst, hothers]
    simp

end

variable {code : Text} {items : List Form}

theorem writeAll_forms_of_complete (h : (read code).status = .complete) :
    writeAll (read code).forms = (stream code).map mark := by
  obtain ⟨xs, r, hr, ⟨rfl, htop, hread⟩ | ⟨-, -, hread⟩ | ⟨x, ys, -, -, -, -, hread⟩⟩ :=
    read_cases code
  · have hwritten := hr.written_eq
    rw [written, htop] at hwritten
    rw [hread, ← hwritten]
    rfl
  · simp [hread] at h
  · simp [hread] at h

/-- A text is read as some forms exactly if its tokens are the tokens of these forms. -/
theorem read_eq_forms_iff :
    (read code).status = .complete ∧ (read code).forms = items ↔
      (stream code).map mark = writeAll items := by
  constructor
  · rintro ⟨hcomplete, rfl⟩
    exact (writeAll_forms_of_complete hcomplete).symm
  · intro h
    have hall : (stream (ofText code).rest).map mark = writeAll items ++ [] := by
      rw [List.append_nil]
      exact h
    obtain ⟨rest, hrest, hrun⟩ := run_of_writeAll items rfl hall
    have hstep := step_of_stream_nil
      (r := { ofText code with rest, siblings := items }) (List.map_eq_nil_iff.1 hrest)
    have hread : read code = ⟨rest, items, [], .complete⟩ := by
      rw [read, hrun, ← run_step rfl]
      change run (step { ofText code with rest, siblings := items }) = _
      rw [hstep]
      exact run_of_ended (by simp [ofText])
    simp [hread, forms]

end DesignRecipe.Reader
