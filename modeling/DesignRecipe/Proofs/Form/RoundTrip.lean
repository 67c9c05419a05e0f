import DesignRecipe.Proofs.Form.Replay
import DesignRecipe.Proofs.Form.Within

/-!
# Reading what was rendered

Rendered forms are read again as themselves, unless a line comment stands inside a list: rendering
puts no line end behind it, so that it takes in what follows. On top level every form has a line
of its own.
-/
namespace DesignRecipe

open Token Lexeme

/-! ### The text of atoms -/

/-- Every atom is spelled as atoms of its kind are. -/
def Mark.AllSpelled (ms : List Mark) : Prop :=
  ∀ kind text, .atom kind text ∈ ms → Spelled kind text

/-- No token is a line comment. -/
def Mark.NoLineComment (ms : List Mark) : Prop := ∀ text, .atom .lineComment text ∉ ms

namespace Mark

variable {ms more : List Mark}

theorem allSpelled_append : AllSpelled (ms ++ more) ↔ AllSpelled ms ∧ AllSpelled more := by
  constructor
  · intro h
    constructor
    · intro kind text hms
      exact h kind text (List.mem_append_left _ hms)
    · intro kind text hmore
      exact h kind text (List.mem_append_right _ hmore)
  · rintro ⟨hms, hmore⟩ kind text h
    rcases List.mem_append.1 h with h | h
    · exact hms kind text h
    · exact hmore kind text h

theorem noLineComment_append :
    NoLineComment (ms ++ more) ↔ NoLineComment ms ∧ NoLineComment more := by
  simp [NoLineComment, not_or, forall_and]

theorem allSpelled_stream (code : Text) : AllSpelled ((stream code).map mark) := by
  intro kind text h
  obtain ⟨x, hx, hmark⟩ := List.mem_map.1 h
  obtain ⟨hkind, rfl⟩ := mark_eq_atom_iff.1 hmark
  have hbegins := (sound_of_mem_stream hx).text
  rw [hkind] at hbegins
  exact front?_of_begins hbegins

end Mark

namespace Token

variable {kind : AtomKind} {s t : Text}

theorem map_mark_stream_opener (s : Text) :
    (stream ('(' :: s)).map mark = .opener :: (stream s).map mark := by
  rw [stream_of_begins (.opener (by decide))]
  rfl

theorem map_mark_stream_closer (s : Text) :
    (stream (')' :: s)).map mark = .closer :: (stream s).map mark := by
  rw [stream_of_begins (.closer (by decide))]
  rfl

theorem map_mark_stream_atom (h : Spelled kind s) (ht : Text.Stops (continues kind) t) :
    (stream (s ++ t)).map mark = .atom kind s :: (stream t).map mark := by
  rw [stream_of_begins (h.begins ht)]
  simp [mark]

/-- A line comment that is not at the end of its line is read with what follows. -/
theorem map_mark_stream_lineComment_ne {c : Char} (h : Spelled .lineComment s)
    (hc : isLineEnd c = false) (t : Text) (ms : List Mark) :
    (stream (s ++ c :: t)).map mark ≠ .atom .lineComment s :: ms := by
  obtain ⟨n, hn, hbegins⟩ := h.lineComment_begins (t := t) hc
  rw [stream_of_begins hbegins]
  intro heq
  have htext : (s ++ c :: t).take n = s := by
    simpa [mark] using (List.cons.inj heq).1
  have hlength := congrArg List.length htext
  rw [List.length_take_of_le hbegins.take.1] at hlength
  omega

/-- Neither a blank nor a closing bracket goes on with an atom other than a line comment. -/
theorem continues_eq_false {c : Char} (hkind : kind ≠ .lineComment) (hc : c = ' ' ∨ c = ')') :
    continues kind c = false := by
  rcases hc with rfl | rfl <;> cases kind <;> first | contradiction | decide

end Token

namespace Form

section atoms

variable {kind : AtomKind} {text : Text}

mutual

/-- The atoms a form is written with are the form itself or stand in it. -/
theorem atom_mem_write (f : Form) :
    .atom kind text ∈ f.write ↔ f = .atom kind text ∨ Within (.atom kind text) f := by
  cases f with
  | atom kind' text' =>
    simp [write, eq_comm]
  | list items =>
    have hitems := atom_mem_writeAll items
    simp [write, within_list_iff, hitems]

theorem atom_mem_writeAll (items : List Form) :
    .atom kind text ∈ writeAll items ↔
      ∃ f ∈ items, f = .atom kind text ∨ Within (.atom kind text) f := by
  cases items with
  | nil => simp [writeAll]
  | cons f items =>
    have hf := atom_mem_write f
    have hitems := atom_mem_writeAll items
    simp [writeAll, hf, hitems]

end

end atoms

/-! ### Rendered forms in their surroundings -/

theorem map_mark_stream_list_iff {items : List Form} {t : Text} {ms : List Mark} :
    (stream ((list items).render ++ t)).map mark = (list items).write ++ ms ↔
      (stream ([' '].intercalate (items.map render) ++ ')' :: t)).map mark =
        writeAll items ++ .closer :: ms := by
  simp [write, map_mark_stream_opener]

theorem allSpelled_list {items : List Form} :
    Mark.AllSpelled (list items).write ↔ Mark.AllSpelled (writeAll items) := by
  simp [Mark.AllSpelled, write]

theorem noLineComment_list {items : List Form} :
    Mark.NoLineComment (list items).write ↔ Mark.NoLineComment (writeAll items) := by
  simp [Mark.NoLineComment, write]

mutual

/-- Inside a list a form is read again as itself exactly if it has no line comment, and then what
follows is read as it stands. -/
theorem map_mark_stream_render_iff (f : Form) {c : Char} (t : Text) (ms : List Mark)
    (hf : Mark.AllSpelled f.write) (hc : c = ' ' ∨ c = ')') :
    (stream (f.render ++ c :: t)).map mark = f.write ++ ms ↔
      Mark.NoLineComment f.write ∧ (stream (c :: t)).map mark = ms := by
  cases f with
  | atom kind text =>
    have hspelled : Spelled kind text := hf kind text (by simp [write])
    rw [render_atom, write, List.singleton_append]
    by_cases hkind : kind = .lineComment
    · subst hkind
      have hend : isLineEnd c = false := by rcases hc with rfl | rfl <;> decide
      have hne := map_mark_stream_lineComment_ne hspelled hend t ms
      simp [hne, Mark.NoLineComment]
    · have hstops : Text.Stops (continues kind) (c :: t) :=
        Text.stops_cons.2 (continues_eq_false hkind hc)
      rw [map_mark_stream_atom hspelled hstops]
      simp [Mark.NoLineComment, Ne.symm hkind]
  | list items =>
    rw [map_mark_stream_list_iff, noLineComment_list]
    exact map_mark_stream_renderAll_iff items (c :: t) ms (allSpelled_list.1 hf)

theorem map_mark_stream_renderAll_iff (items : List Form) (t : Text) (ms : List Mark)
    (h : Mark.AllSpelled (writeAll items)) :
    (stream ([' '].intercalate (items.map render) ++ ')' :: t)).map mark =
        writeAll items ++ .closer :: ms ↔
      Mark.NoLineComment (writeAll items) ∧ (stream t).map mark = ms := by
  cases items with
  | nil =>
    change (stream (')' :: t)).map mark = _ ↔ _
    rw [map_mark_stream_closer]
    simp [writeAll, Mark.NoLineComment]
  | cons f items =>
    rw [writeAll, Mark.allSpelled_append] at h
    obtain ⟨hf, hitems⟩ := h
    cases items with
    | nil =>
      have hread := map_mark_stream_render_iff f t (.closer :: ms) hf (.inr rfl)
      rw [map_mark_stream_closer] at hread
      simpa [writeAll] using hread
    | cons g items =>
      have hothers := map_mark_stream_renderAll_iff (g :: items) t ms hitems
      rw [← map_mark_stream_blank (c := ' ') (by decide)] at hothers
      rw [writeAll, List.append_assoc, Mark.noLineComment_append, and_assoc, ← hothers,
        ← map_mark_stream_render_iff f _ _ hf (.inl rfl)]
      simp [List.intercalate_cons_cons]

end

/-- Where no line goes on, a form is read again as itself exactly if no line comment stands in it;
it may be one. -/
theorem map_mark_stream_line_iff (f : Form) (t : Text) (ms : List Mark)
    (hf : Mark.AllSpelled f.write) (ht : ∀ c ∈ t.head?, c = '\n') :
    (stream (f.render ++ t)).map mark = f.write ++ ms ↔
      (∀ text, ¬Within (.atom .lineComment text) f) ∧ (stream t).map mark = ms := by
  cases f with
  | atom kind text =>
    have hspelled : Spelled kind text := hf kind text (by simp [write])
    have hstops : Text.Stops (continues kind) t := by
      intro c hc
      rw [ht c hc]
      exact continues_lineFeed kind
    rw [render_atom, write, List.singleton_append, map_mark_stream_atom hspelled hstops]
    simp
  | list items =>
    rw [map_mark_stream_list_iff, map_mark_stream_renderAll_iff items t ms (allSpelled_list.1 hf)]
    simp [Mark.NoLineComment, atom_mem_writeAll, within_list_iff]

/-- Lines of one form each are read again as these forms exactly if no line comment stands inside
one of them. -/
theorem map_mark_stream_lines_iff (items : List Form) (h : Mark.AllSpelled (writeAll items)) :
    (stream (['\n'].intercalate (items.map render))).map mark = writeAll items ↔
      ∀ f ∈ items, ∀ text, ¬Within (.atom .lineComment text) f := by
  induction items with
  | nil =>
    change (stream []).map mark = [] ↔ _
    simp
  | cons f items ih =>
    rw [writeAll, Mark.allSpelled_append] at h
    obtain ⟨hf, hitems⟩ := h
    have hothers := ih hitems
    rw [List.forall_mem_cons, ← hothers]
    cases items with
    | nil =>
      have hread := map_mark_stream_line_iff f [] [] hf (by simp)
      simpa [writeAll] using hread
    | cons g items =>
      have hblank : Text.isBlank '\n' = true := by decide
      have hread := map_mark_stream_line_iff f
        ('\n' :: ['\n'].intercalate ((g :: items).map render)) (writeAll (g :: items)) hf (by simp)
      rw [map_mark_stream_blank hblank] at hread
      rw [writeAll, ← hread]
      simp [List.intercalate_cons_cons]

end Form

namespace Reader

open Form

/-- Rendering the forms of a text line by line and reading them again gives the same forms exactly
if no line comment stands inside a list. -/
theorem read_render_iff {code : Text} (h : (read code).status = .complete) :
    ((read (['\n'].intercalate ((read code).forms.map render))).status = .complete ∧
        (read (['\n'].intercalate ((read code).forms.map render))).forms = (read code).forms) ↔
      ∀ f ∈ (read code).forms, ∀ text, ¬Within (.atom .lineComment text) f := by
  have hwritten := writeAll_forms_of_complete h
  have hspelled : Mark.AllSpelled (writeAll (read code).forms) := by
    rw [hwritten]
    exact Mark.allSpelled_stream code
  rw [read_eq_forms_iff, map_mark_stream_lines_iff _ hspelled]

/-- A comment behind a list is read again as it was, a comment inside is not. -/
theorem read_render_iff_of_comment :
    (read "(a [1]);c".toList).status = .complete ∧
      (read (['\n'].intercalate ((read "(a [1]);c".toList).forms.map render))).forms =
        (read "(a [1]);c".toList).forms ∧
      (read "(a ;c\n)".toList).status = .complete ∧
      ¬((read (['\n'].intercalate ((read "(a ;c\n)".toList).forms.map render))).status = .complete ∧
        (read (['\n'].intercalate ((read "(a ;c\n)".toList).forms.map render))).forms =
          (read "(a ;c\n)".toList).forms) := by
  have hbehind : (read "(a [1]);c".toList).status = .complete := by cbv
  have hinside : (read "(a ;c\n)".toList).status = .complete := by cbv
  have hforms : (read "(a [1]);c".toList).forms =
      [.list [.atom .identifier ['a'], .list [.atom .number ['1']]],
        .atom .lineComment [';', 'c']] := by cbv
  have hforms' : (read "(a ;c\n)".toList).forms =
      [.list [.atom .identifier ['a'], .atom .lineComment [';', 'c']]] := by cbv
  refine ⟨hbehind, ((read_render_iff hbehind).2 ?_).2, hinside, ?_⟩
  · rw [hforms]
    simp [within_list_iff]
  · intro hsame
    have hfree := (read_render_iff hinside).1 hsame
    rw [hforms'] at hfree
    have hlist := hfree _ (List.mem_singleton_self _) [';', 'c']
    exact hlist (.item (List.mem_cons_of_mem _ (List.mem_singleton_self _)))

end Reader

end DesignRecipe
