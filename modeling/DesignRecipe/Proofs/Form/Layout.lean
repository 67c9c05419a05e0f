import DesignRecipe.Proofs.Form.LineBreak
import DesignRecipe.Proofs.Form.Tiling
import DesignRecipe.Proofs.Token.Layout
import DesignRecipe.Recipe.Assessment
import Mathlib.Logic.Relation

/-!
# The layout of a program

Only the marks of its tokens decide how a program is read. A new layout keeps them, provided that
every token the reader takes is reached over a plain gap. The gaps stay plain, so that one new
layout may follow another.
-/
namespace DesignRecipe.Reader

open Token Lexeme Form

/-- The second text is the first one in a new layout. What the reader leaves behind stays as it
is. -/
def Relaid (code code' : Text) : Prop :=
  ∃ pieces, List.Forall₂ Lexeme.Relaid (ofText code).consumed pieces ∧
    code' = pieces.flatten ++ (read code).rest

/-! ### What was consumed -/

variable {code code' : Text}

/-- The tokens consumed stand in front of what is left, and they are what the forms were read
from. -/
theorem read_consumed (code : Text) :
    code = (ofText code).consumed.flatMap whole ++ (read code).rest ∧
      stream code = (ofText code).consumed ++ stream (read code).rest ∧
      (read code).written = (ofText code).consumed.map mark := by
  obtain ⟨s, hs, hend, hread⟩ := (hasRead_ofText code).exists_consumed
  rw [List.nil_append] at hs
  rw [read, hread, step_eq_of_atEnd hend]
  exact ⟨hs.text_eq, hs.stream_eq, hs.written_eq⟩

/-! ### What is read -/

theorem Below.length_eq {items siblings siblings' : List Form}
    {enclosing enclosing' : List (List Form)}
    (h : Below items siblings enclosing siblings' enclosing') :
    enclosing'.length = enclosing.length := by
  induction h with
  | top => rfl
  | inside _ ih => simp [ih]

/-- A text is read by the marks of its tokens alone. -/
theorem read_of_map_mark_eq (h : (stream code').map mark = (stream code).map mark) :
    (read code').status = (read code).status ∧ (read code').forms = (read code).forms ∧
      (read code').written = (read code).written := by
  have hstart : Follows [] (ofText code) (ofText code') := ⟨rfl, h, .top⟩
  have hend := hstart.run
  have hforms : (read code').forms = (read code).forms := hend.forms_eq
  have hdepth : (read code').enclosing.length = (read code).enclosing.length :=
    hend.levels.length_eq
  refine ⟨hend.status, hforms, ?_⟩
  rw [written, written, hforms, hdepth]

theorem result_assess_of_read_eq (hstatus : (read code').status = (read code).status)
    (hforms : (read code').forms = (read code).forms) (threshold : ℕ) :
    (assess code' threshold).result = (assess code threshold).result := by
  simp only [assess, hstatus, hforms]
  cases (read code).status <;> rfl

/-! ### One new layout and many -/

/-- A new layout keeps the marks of the tokens, and keeps plain what lies in front of them. -/
theorem Relaid.keeps (h : Relaid code code') (hgaps : ∀ x ∈ (ofText code).consumed, Plain x.gap) :
    (stream code').map mark = (stream code).map mark ∧
      ∀ x ∈ (ofText code').consumed, Plain x.gap := by
  obtain ⟨pieces, hpieces, hcode'⟩ := h
  obtain ⟨htext, hstream, hwritten⟩ := read_consumed code
  obtain ⟨-, hstream', hwritten'⟩ := read_consumed code'
  obtain ⟨ys, last, hlast, hmarks, hplain, hrelaid⟩ :=
    exists_stream_flatten hpieces hstream htext hgaps (by decide : Text.Blank [])
  rw [List.nil_append, ← hcode'] at hrelaid
  have hall : (stream code').map mark = (stream code).map mark := by
    rw [hrelaid, hstream, List.map_append, List.map_append, hmarks,
      map_mark_stream_blank_append hlast]
  refine ⟨hall, ?_⟩
  -- the reader of the new text takes as many tokens, so it takes those of the new layout
  have hsame : (ofText code').consumed.map mark = ys.map mark := by
    rw [← hwritten', (read_of_map_mark_eq hall).2.2, hwritten, hmarks]
  have hlength : (ofText code').consumed.length = ys.length := by
    simpa using congrArg List.length hsame
  rw [(List.append_inj (hstream'.symm.trans hrelaid) hlength).1]
  exact hplain

/-- So does any number of new layouts, one after the other. -/
theorem relaid_star_keeps (h : Relation.ReflTransGen Relaid code code')
    (hgaps : ∀ x ∈ (ofText code).consumed, Plain x.gap) :
    (stream code').map mark = (stream code).map mark ∧
      ∀ x ∈ (ofText code').consumed, Plain x.gap := by
  induction h with
  | refl => exact ⟨rfl, hgaps⟩
  | tail _ hlast ih =>
    obtain ⟨hmarks, hplain⟩ := ih
    obtain ⟨hmarks', hplain'⟩ := hlast.keeps hplain
    exact ⟨hmarks'.trans hmarks, hplain'⟩

/-- A program is read and assessed in the same way however it is laid out, if nothing that waits to
be closed is skipped on the way to a token that the reader takes. -/
theorem layout_does_not_matter (hgaps : ∀ x ∈ (ofText code).consumed, Plain x.gap)
    (h : Relation.ReflTransGen Relaid code code') :
    (read code').status = (read code).status ∧ (read code').forms = (read code).forms ∧
      ∀ threshold, (assess code' threshold).result = (assess code threshold).result := by
  obtain ⟨hmarks, -⟩ := relaid_star_keeps h hgaps
  obtain ⟨hstatus, hforms, -⟩ := read_of_map_mark_eq hmarks
  exact ⟨hstatus, hforms, result_assess_of_read_eq hstatus hforms⟩

/-- The backslash in front of the quote belongs to the name, and the quote is not escaped by it. A
comment behind the string, and other brackets with blanks around them, change nothing either. -/
theorem layout_does_not_matter_of_string :
    (read "( x\\ \"a\" ;b\n ]".toList).status = .complete ∧
      (read "( x\\ \"a\" ;b\n ]".toList).forms = (read "[x\\\"a\";b\n)".toList).forms ∧
      ∀ threshold, (assess "( x\\ \"a\" ;b\n ]".toList threshold).result =
        (assess "[x\\\"a\";b\n)".toList threshold).result := by
  have hconsumed : (ofText "[x\\\"a\";b\n)".toList).consumed =
      [⟨[], .opener, ['[']⟩, ⟨[], .atom .identifier, ['x', '\\']⟩,
        ⟨[], .atom .string, ['"', 'a', '"']⟩, ⟨[], .atom .lineComment, [';', 'b']⟩,
        ⟨['\n'], .closer, [')']⟩] := by cbv
  have hrest : (read "[x\\\"a\";b\n)".toList).rest = [] := by cbv
  have hcomplete : (read "[x\\\"a\";b\n)".toList).status = .complete := by cbv
  have hgaps : ∀ x ∈ (ofText "[x\\\"a\";b\n)".toList).consumed, Plain x.gap := by
    rw [hconsumed]
    decide
  have hnone : Text.Blank [] := by decide
  have hone : Text.Blank [' '] := by decide
  have hrelaid : Relaid "[x\\\"a\";b\n)".toList "( x\\ \"a\" ;b\n ]".toList := by
    rw [Relaid, hconsumed, hrest]
    exact ⟨_, .cons (.mk [] ['('] [' '] hnone hone (.opener rfl) (by decide))
      (.cons (.mk [] _ [' '] hnone hone .same (by decide))
        (.cons (.mk [] _ [' '] hnone hone .same (by decide))
          (.cons (.mk [] _ [] hnone hnone .same fun _ => rfl)
            (.cons (.mk [' '] [']'] [] hone hnone (.closer rfl) (by decide)) .nil)))), rfl⟩
  have hsame := layout_does_not_matter hgaps (.single hrelaid)
  rw [hcomplete] at hsame
  exact hsame

end DesignRecipe.Reader
