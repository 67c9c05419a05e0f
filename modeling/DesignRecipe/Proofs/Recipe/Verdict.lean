import DesignRecipe.Proofs.Recipe.Blockwise
import DesignRecipe.Proofs.Recipe.Inspection
import DesignRecipe.Proofs.Recipe.Signature

/-!
# The verdict

The verdict on a design comes last, and it is all that the number of tests required has a say in.
It is passed on every design but one whose signature is the last form of the program.
-/
namespace DesignRecipe

/-! ### Raising the number of tests required -/

/-- Of two sections the second has at most one warning more, about too few tests, because `t'`
tests are required in place of `t`. -/
inductive Section.Raised (t t' : Int) : Section → Section → Prop
  | opening (warnings : List Warning) : Raised t t' (.opening warnings) (.opening warnings)
  | same (d : Design) : Raised t t' (.design d) (.design d)
  | fewTests (name : Text) (purposeLines tests : Nat) (warnings : List Warning) :
    t ≤ tests → tests < t' →
      Raised t t' (.design ⟨name, purposeLines, tests, warnings⟩)
        (.design ⟨name, purposeLines, tests, warnings ++ [.ofComplaint (.fewTests tests)]⟩)

theorem Section.Raised.judge {t t' : Int} (h : t ≤ t') (d : Design) :
    Raised t t' (.design (d.judge t)) (.design (d.judge t')) := by
  obtain ⟨name, purposeLines, tests, warnings⟩ := d
  by_cases hfew : (tests : Int) < t
  · have hfew' : (tests : Int) < t' := by omega
    have hsame : Design.judge t' ⟨name, purposeLines, tests, warnings⟩ =
        Design.judge t ⟨name, purposeLines, tests, warnings⟩ := by
      simp [Design.judge, Design.shortcomings, hfew, hfew']
    rw [hsame]
    exact .same _
  · by_cases hfew' : (tests : Int) < t'
    · simp only [Design.judge, Design.shortcomings, Design.warn, hfew, hfew', if_true, if_false,
        List.map_append, List.append_nil, List.map_cons, List.map_nil, ← List.append_assoc]
      exact .fewTests name purposeLines tests _ (by omega) hfew'
    · simp only [Design.judge, Design.shortcomings, hfew, hfew']
      exact .same _

namespace Review

theorem raising_threshold_adds_last_warning (forms : List Form) {t t' : Int} (h : t ≤ t') :
    (ofProgram forms t).sections.length = (ofProgram forms t').sections.length ∧
      List.Forall₂ (Section.Raised t t') (ofProgram forms t).sections
        (ofProgram forms t').sections ∧
      (ofProgram forms t).templates = (ofProgram forms t').templates := by
  obtain ⟨s⟩ : Nonempty (Segmentation forms) := inferInstance
  have hsections : List.Forall₂ (Section.Raised t t') (ofProgram forms t).sections
      (ofProgram forms t').sections := by
    rw [sections_ofProgram s t, sections_ofProgram s t']
    refine .cons (.opening _) ?_
    simp only [List.forall₂_map_left_iff, List.forall₂_map_right_iff, List.forall₂_same]
    intro b _
    unfold Block.design
    split_ifs
    · exact .same _
    · exact .judge h _
  refine ⟨hsections.length_eq, hsections, ?_⟩
  rw [templates_ofProgram s t, templates_ofProgram s t']

/-- Of a signature and a string one test is too many to require. -/
theorem raising_threshold_adds_last_warning_of_untested :
    (0 : Int) ≤ 1 ∧
      List.Forall₂ (Section.Raised 0 1)
        (ofProgram [.atom .lineComment ";f:A -> B".toList, .atom .string "\"\"".toList] 0).sections
        (ofProgram
          [.atom .lineComment ";f:A -> B".toList, .atom .string "\"\"".toList] 1).sections ∧
      (ofProgram [.atom .lineComment ";f:A -> B".toList, .atom .string "\"\"".toList] 0).sections =
        [.opening [], .design ⟨['f'], 0, 0, [.ofComplaint .noPurpose]⟩] ∧
      (ofProgram [.atom .lineComment ";f:A -> B".toList, .atom .string "\"\"".toList] 1).sections =
        [.opening [],
          .design ⟨['f'], 0, 0, [.ofComplaint .noPurpose, .ofComplaint (.fewTests 0)]⟩] := by
  have hsignature := Signature.name?_short
  refine ⟨by decide, (raising_threshold_adds_last_warning _ (by decide)).2.1, ?_⟩
  generalize Form.atom .lineComment ";f:A -> B".toList = signature at hsignature ⊢
  have hsections := sections_of_block (Block.fits_of_string hsignature "\"\"".toList (by simp))
  constructor
  · exact hsections 0
  · exact hsections 1

end Review

/-! ### Telling the verdict from other warnings -/

namespace Design

variable {d : Design} {threshold : Int}

theorem mem_shortcomings_iff {c : Complaint} :
    c ∈ d.shortcomings threshold ↔
      c = .noPurpose ∧ d.purposeLines = 0 ∨
        c = .fewTests d.tests ∧ (d.tests : Int) < threshold := by
  simp [shortcomings, and_comm]

/-- What the verdict has to say about a design is said. -/
def Judged (threshold : Int) (d : Design) : Prop :=
  ("no purpose statement".toList ∈ d.warnings.map Warning.text ↔ d.purposeLines = 0) ∧
    ("only ".toList ++ Text.ofNat d.tests ++ " tests".toList ∈ d.warnings.map Warning.text ↔
      (d.tests : Int) < threshold)

/-- A verdict can be told by its first letter from what was said before. -/
theorem judged_judge (h : ∀ w ∈ d.warnings, w.text.head? ≠ some 'n' ∧ w.text.head? ≠ some 'o') :
    (d.judge threshold).Judged threshold := by
  have hmem {text : Text} : text ∈ (d.judge threshold).warnings.map Warning.text ↔
      text ∈ d.warnings.map Warning.text ∨ ∃ c ∈ d.shortcomings threshold, c.text = text := by
    simp [judge, warn, List.mem_append]
  have hbefore {text : Text} (htext : text ∈ d.warnings.map Warning.text) :
      text.head? ≠ some 'n' ∧ text.head? ≠ some 'o' := by
    obtain ⟨w, hw, rfl⟩ := List.mem_map.1 htext
    exact h w hw
  constructor
  · rw [hmem]
    constructor
    · rintro (htext | ⟨c, hc, htext⟩)
      · exact absurd rfl (hbefore htext).1
      · rcases mem_shortcomings_iff.1 hc with ⟨-, hpurpose⟩ | ⟨rfl, -⟩
        · exact hpurpose
        · cases htext
    · intro hpurpose
      exact .inr ⟨.noPurpose, mem_shortcomings_iff.2 (.inl ⟨rfl, hpurpose⟩), rfl⟩
  · rw [hmem]
    constructor
    · rintro (htext | ⟨c, hc, htext⟩)
      · exact absurd rfl (hbefore htext).2
      · rcases mem_shortcomings_iff.1 hc with ⟨rfl, -⟩ | ⟨-, hfew⟩
        · cases htext
        · exact hfew
    · intro hfew
      exact .inr ⟨.fewTests d.tests, mem_shortcomings_iff.2 (.inr ⟨rfl, hfew⟩), rfl⟩

end Design

theorem LocalPlace.head?_text (place : LocalPlace) : place.text.head? = some 'w' := by
  cases place <;> rfl

namespace Block

/-- The complaints about forms and the places of local warnings begin with other letters than
verdicts. -/
theorem head?_text_of_mem_draft (b : Block) :
    ∀ w ∈ (b.draft Definition.inspect).warnings,
      w.text.head? ≠ some 'n' ∧ w.text.head? ≠ some 'o' := by
  intro w hw
  obtain ⟨f, -, hw⟩ := List.mem_flatMap.1 hw
  refine Review.forall_mem_memberWarnings
    (P := fun v => v.text.head? ≠ some 'n' ∧ v.text.head? ≠ some 'o') ?_ ?_ ?_ w hw
  · intro e _
    constructor <;> rintro ⟨⟩
  · constructor <;> rintro ⟨⟩
  · intro e _ v hv
    obtain ⟨forms, -, s, -, v, -, rfl⟩ := Definition.exists_within_of_mem_inspect hv
    simp [LocalPlace.head?_text]

theorem Chained.getLast?_of_isBare {b : Block} {blocks : List Block} (h : Chained blocks)
    (hb : b ∈ blocks) (hbare : b.IsBare) :
    (blocks.flatMap forms).getLast? = some b.signature := by
  induction h with
  | nil => cases hb
  | @cons c blocks hfits _ ih =>
    rw [List.flatMap_cons]
    rcases List.mem_cons.1 hb with rfl | hb
    · rw [hfits.rest_eq_nil hbare, List.append_nil, forms, hbare.1, hbare.2]
      rfl
    · rw [List.getLast?_append, ih hb]
      rfl

end Block

namespace Review

/-- Every design is judged, unless its signature is the last form of all. -/
theorem judged_unless_signature_last (forms : List Form) (threshold : Int) :
    ∃ s : Segmentation forms, (∀ other : Segmentation forms, other = s) ∧
      ∃ warnings designs,
        (ofProgram forms threshold).sections = .opening warnings :: designs.map .design ∧
        List.Forall₂ (fun d b =>
          (¬b.IsBare → d.Judged threshold) ∧
            (b.IsBare → d = .ofName b.name ∧ forms.getLast? = some b.signature))
          designs s.blocks := by
  obtain ⟨s⟩ : Nonempty (Segmentation forms) := inferInstance
  refine ⟨s, fun other => Subsingleton.elim other s, _, _, sections_ofProgram s threshold, ?_⟩
  rw [List.forall₂_map_left_iff, List.forall₂_same]
  intro b hb
  constructor
  · intro hbare
    rw [Block.design, if_neg hbare]
    exact Design.judged_judge b.head?_text_of_mem_draft
  · intro hbare
    constructor
    · rw [Block.design, if_pos hbare, b.draft_of_isBare hbare]
    · have hlast := s.chained.getLast?_of_isBare hb hbare
      rw [← s.forms_eq, List.getLast?_append, hlast]
      rfl

/-- Of two signatures with a string between them the first one's design is judged, the second
one's is not. -/
theorem judged_unless_signature_last_of_string :
    ∃ warnings d,
      (ofProgram [.atom .lineComment ";f:A -> B".toList, .atom .string "\"\"".toList,
        .atom .lineComment ";f:A -> B".toList] 2).sections =
          [.opening warnings, .design d, .design (.ofName ['f'])] ∧ d.Judged 2 := by
  have hsignature := Signature.name?_short
  generalize Form.atom .lineComment ";f:A -> B".toList = signature at hsignature ⊢
  have hlast : Block.Fits ⟨['f'], signature, [], []⟩ [] := Block.fits_of_last hsignature
  have hfirst : Block.Fits ⟨['f'], signature, [], [.atom .string "\"\"".toList]⟩ [signature] :=
    Block.fits_of_string hsignature _ (by simp [hsignature])
  obtain ⟨s, hunique, warnings, designs, hsections, hdesigns⟩ :=
    judged_unless_signature_last [signature, .atom .string "\"\"".toList, signature] 2
  have hs := hunique ⟨[], [_, _], by simp, .cons hfirst (.cons hlast .nil), rfl⟩
  rw [← hs] at hdesigns
  rcases hdesigns with _ | ⟨⟨hjudged, -⟩, _ | ⟨⟨-, hbare⟩, _ | _⟩⟩
  rw [(hbare ⟨rfl, rfl⟩).1] at hsections
  exact ⟨warnings, _, hsections, hjudged (by simp [Block.IsBare])⟩

/-- A program that is a signature only is not complained about. -/
theorem signature_last_not_judged :
    ¬∀ (forms : List Form) (threshold : Int) (d : Design),
      .design d ∈ (ofProgram forms threshold).sections → d.Judged threshold := by
  intro h
  have hsignature := Signature.name?_short
  have hsections := sections_of_block (Block.fits_of_last hsignature) 2
  rw [Block.design, if_pos ⟨rfl, rfl⟩, Block.draft_of_isBare ⟨rfl, rfl⟩] at hsections
  have hjudged := h _ 2 (.ofName ['f']) (by rw [hsections]; simp)
  simpa [Design.ofName] using hjudged.1

end Review

end DesignRecipe
