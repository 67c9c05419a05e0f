import DesignRecipe.Proofs.Form.LineEnding
import DesignRecipe.Proofs.Recipe.AtomText
import DesignRecipe.Proofs.Recipe.LocalPlaces
import DesignRecipe.Recipe.Assessment

/-!
# Assessments and line ends

Warnings hold names, which have no line ends in them, and tests as they are rendered. So a program
with unified line ends is assessed like the program itself, and line ends are unified in the
warnings.
-/
namespace DesignRecipe

open Text

/-! ### Warnings -/

/-- Carriage returns stand in strings and block comments of the test only. -/
def Complaint.Tidy : Complaint → Prop
  | .noPurpose | .fewTests _ => True
  | .strayDefinition name => '\r' ∉ name
  | .strayTest test => test.Tidy
  | .idleTest name test => '\r' ∉ name ∧ test.Tidy

structure Warning.Tidy (w : Warning) : Prop where
  proper : ∀ place, w.place = some place → place.Proper
  complaint : w.complaint.Tidy

theorem Text.not_mem_ofNat {c : Char} (hc : c.isDigit = false) (n : ℕ) : c ∉ ofNat n := by
  intro hmem
  rw [Nat.isDigit_of_mem_toDigits (by decide) (by decide) hmem] at hc
  cases hc

namespace LocalPlace

theorem Proper.not_mem_name {name : Text} (h : (design name).Proper) : '\r' ∉ name := by
  intro hmem
  have hblank : isBlank '\r' = true := by decide
  rw [h.2 _ hmem] at hblank
  cases hblank

theorem Proper.not_mem_text {place : LocalPlace} (h : place.Proper) : '\r' ∉ place.text := by
  cases place with
  | opening => decide
  | design name =>
    rw [text_design, List.mem_append, List.mem_append, not_or, not_or]
    exact ⟨⟨by decide, h.not_mem_name⟩, by decide⟩

end LocalPlace

/-- Line ends may be unified in a test, or in the complaint about it. -/
theorem Complaint.text_mapText {c : Complaint} (h : c.Tidy) :
    (c.mapText unifyLineEnds).text = unifyLineEnds c.text := by
  cases c with
  | noPurpose => exact (unifyLineEnds_of_not_mem (by decide)).symm
  | fewTests tests =>
    have hnumber : '\r' ∉ ofNat tests := not_mem_ofNat (by decide) tests
    have hnot : '\r' ∉ "only ".toList ++ ofNat tests ++ " tests".toList := by
      rw [List.mem_append, List.mem_append, not_or, not_or]
      exact ⟨⟨by decide, hnumber⟩, by decide⟩
    exact (unifyLineEnds_of_not_mem hnot).symm
  | strayDefinition name =>
    have hnot : '\r' ∉ "unexpected function definition for ".toList ++ name := by
      rw [List.mem_append, not_or]
      exact ⟨by decide, h⟩
    exact (unifyLineEnds_of_not_mem hnot).symm
  | strayTest test =>
    change "unexpected test: ".toList ++ (test.mapText unifyLineEnds).render =
      unifyLineEnds ("unexpected test: ".toList ++ test.render)
    rw [unifyLineEnds_append_of_not_mem (by decide), Form.render_mapText test h]
  | idleTest name test =>
    obtain ⟨hname, htest⟩ := h
    have hnot : '\r' ∉ "expected test to call ".toList ++ name ++ ": ".toList := by
      rw [List.mem_append, List.mem_append, not_or, not_or]
      exact ⟨⟨by decide, hname⟩, by decide⟩
    change "expected test to call ".toList ++ name ++ ": ".toList ++
        (test.mapText unifyLineEnds).render =
      unifyLineEnds ("expected test to call ".toList ++ name ++ ": ".toList ++ test.render)
    rw [unifyLineEnds_append_of_not_mem hnot, Form.render_mapText test htest]

theorem Warning.text_mapText {w : Warning} (h : w.Tidy) :
    (w.mapText unifyLineEnds).text = unifyLineEnds w.text := by
  obtain ⟨place, c⟩ := w
  have hcomplaint := Complaint.text_mapText h.complaint
  cases place with
  | none => exact hcomplaint
  | some place =>
    change place.text ++ (c.mapText unifyLineEnds).text = unifyLineEnds (place.text ++ c.text)
    rw [hcomplaint, unifyLineEnds_append_of_not_mem (h.proper place rfl).not_mem_text]

theorem Warning.tidy_ofComplaint {c : Complaint} (h : c.Tidy) : (ofComplaint c).Tidy :=
  ⟨nofun, h⟩

/-! ### Reviews -/

namespace Review

variable {inspect : Inspector} {forms : List Form} {threshold : Int} {s : Section}

/-- The review of a tidy program is tidy, if what is found inside tidy definitions is. -/
theorem tidy_of_mem_sections
    (hinside : ∀ e, e.body.Tidy → ∀ w ∈ (inspect e).warnings, w.Tidy)
    (hforms : ∀ f ∈ forms, f.Tidy)
    (hs : s ∈ ((ofForms forms threshold).complete inspect).sections) :
    ∀ w ∈ s.warnings, w.Tidy := by
  refine forall_mem_warnings ?_ ?_ ?_ hs
  · intro f hf
    apply forall_mem_strayWarnings
    · intro e he
      exact Warning.tidy_ofComplaint (Definition.tidy_of_ofForm? (hforms f hf) he).1
    · exact Warning.tidy_ofComplaint (hforms f hf)
    · intro e he
      exact hinside e (Definition.tidy_of_ofForm? (hforms f hf) he).2
  · intro f hf name hname
    apply forall_mem_memberWarnings
    · intro e he
      exact Warning.tidy_ofComplaint (Definition.tidy_of_ofForm? (hforms f hf) he).1
    · exact Warning.tidy_ofComplaint ⟨hname.not_mem_name, hforms f hf⟩
    · intro e he
      exact hinside e (Definition.tidy_of_ofForm? (hforms f hf) he).2
  · intro d c hc
    apply Warning.tidy_ofComplaint
    rcases Design.mem_shortcomings_iff.1 hc with ⟨rfl, -⟩ | ⟨rfl, -⟩ <;> trivial

end Review

namespace Definition

theorem tidy_of_mem_inspectTo (level : ℕ) :
    ∀ d, d.body.Tidy → ∀ w ∈ (inspectTo level d).warnings, w.Tidy := by
  induction level with
  | zero => exact fun _ _ _ => nofun
  | succ level ih =>
    intro d hd w hw
    obtain ⟨forms, hforms, s, hs, v, hv, rfl⟩ := exists_within_of_mem_inspectWith hw
    have htidy := Review.tidy_of_mem_sections ih (tidy_of_mem_localForms hd hforms) hs v hv
    refine ⟨?_, htidy.complaint⟩
    rintro place ⟨⟩
    exact Review.proper_place_of_mem_sections hs

end Definition

/-- The group with unified line ends in its warnings. -/
def Group.unifyLineEnds (g : Group) : Group :=
  { g with warnings := g.warnings.map Text.unifyLineEnds }

theorem Section.group_mapText {s : Section} (h : ∀ w ∈ s.warnings, w.Tidy) :
    (s.mapText unifyLineEnds).group = s.group.unifyLineEnds := by
  have hwarnings : (s.mapText unifyLineEnds).warnings.map Warning.text =
      (s.warnings.map Warning.text).map unifyLineEnds := by
    rw [warnings_mapText, List.map_map, List.map_map]
    apply List.map_congr_left
    intro w hw
    exact Warning.text_mapText (h w hw)
  rw [group, hwarnings, title_mapText]
  rfl

namespace Review

theorem groups_ofProgram_mapText {forms : List Form} (h : ∀ f ∈ forms, f.Tidy) (threshold : Int) :
    (ofProgram (forms.map (Form.mapText unifyLineEnds)) threshold).groups =
      (ofProgram forms threshold).groups.map Group.unifyLineEnds := by
  have hmeant : (fun s : Section => !s.warnings.isEmpty) ∘ Section.mapText unifyLineEnds =
      fun s => !s.warnings.isEmpty := by
    funext s
    simp
  rw [groups, groups, sections_ofProgram_mapText, List.filter_map, hmeant, List.map_map,
    List.map_map]
  apply List.map_congr_left
  intro s hs
  apply Section.group_mapText
  apply tidy_of_mem_sections _ h (List.mem_filter.1 hs).1
  intro e he
  exact Definition.tidy_of_mem_inspectTo e.body.depth e he

end Review

/-- A program with unified line ends has the same fault, or the same warnings with unified line
ends. -/
theorem result_assess_unifyLineEnds (code : Text) (threshold : ℕ) :
    (assess (unifyLineEnds code) threshold).result =
      (assess code threshold).result.map (List.map Group.unifyLineEnds) := by
  have hstatus := Reader.status_read_unifyLineEnds code
  unfold assess
  dsimp only
  rw [hstatus]
  cases hcode : (Reader.read code).status with
  | complete =>
    have hforms := Reader.forms_read_unifyLineEnds hcode
    have htidy : ∀ f ∈ (Reader.read code).forms, f.Tidy := fun f => Form.tidy_of_mem_forms hcode
    dsimp only [Except.map]
    rw [hforms, Review.groups_ofProgram_mapText htidy]
  | reading => rfl
  | unclosed => rfl
  | strayCloser => rfl

end DesignRecipe
