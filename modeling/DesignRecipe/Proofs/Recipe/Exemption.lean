import DesignRecipe.Proofs.Recipe.Verdict

/-!
# Interactive programs

A definition that starts an interactive program is taken for a great number of tests, and the tests
behind it are counted on from there. So such a design is exempt from the rule about tests as long as
no more than that number is required.
-/
namespace DesignRecipe

/-! ### The tests behind a program -/

/-- The last element of a kind, if there is one. -/
theorem exists_last_of_exists {α : Type*} {p : α → Bool} {xs : List α} (h : ∃ x ∈ xs, p x = true) :
    ∃ before x after, xs = before ++ x :: after ∧ p x = true ∧ ∀ y ∈ after, p y = false := by
  obtain ⟨x, hx⟩ : ∃ x, xs.reverse.find? p = some x := by
    rw [← Option.isSome_iff_exists, List.find?_isSome]
    simpa using h
  obtain ⟨hp, after, before, hsplit, hafter⟩ := List.find?_eq_some_iff_append.1 hx
  refine ⟨before.reverse, x, after.reverse, ?_, hp, by simpa using hafter⟩
  rw [← List.reverse_reverse xs, hsplit]
  simp

/-- What stands in front of the last program does not count. -/
theorem Block.tests_of_program {b : Block} {before after : List Form} {f : Form}
    (hbody : b.body = before ++ f :: after) (hf : f.startsProgram = true)
    (hafter : ∀ g ∈ after, g.startsProgram = false) :
    b.tests = 1000 + after.countP Form.isTest := by
  have hany : b.body.any Form.startsProgram = true := by simp [hbody, hf]
  have hbehind : b.body.rtakeWhile (!·.startsProgram) = after := by
    rw [List.rtakeWhile, hbody, List.reverse_append, List.reverse_cons, List.append_assoc,
      takeWhile_append_of_boundary (by simpa using hafter) (by simp [hf]), List.reverse_reverse]
  rw [tests, if_pos hany, hbehind]

/-! ### The complaint about tests -/

namespace Design

/-- Some number of tests is said to be too small. -/
def LacksTests (d : Design) : Prop :=
  ∃ n : ℕ, "only ".toList ++ Text.ofNat n ++ " tests".toList ∈ d.warnings.map Warning.text

variable {d : Design} {threshold : Int}

theorem lacksTests_judge_iff
    (h : ∀ w ∈ d.warnings, w.text.head? ≠ some 'n' ∧ w.text.head? ≠ some 'o') :
    (d.judge threshold).LacksTests ↔ (d.tests : Int) < threshold := by
  constructor
  · rintro ⟨n, htext⟩
    rw [judge, warn, List.map_append, List.mem_append] at htext
    rcases htext with hbefore | hverdict
    · obtain ⟨w, hw, htext⟩ := List.mem_map.1 hbefore
      have hhead := (h w hw).2
      rw [htext] at hhead
      exact absurd rfl hhead
    · simp only [List.map_map, List.mem_map, Function.comp_apply] at hverdict
      obtain ⟨c, hc, htext⟩ := hverdict
      rcases mem_shortcomings_iff.1 hc with ⟨rfl, -⟩ | ⟨-, hfew⟩
      · cases htext
      · exact hfew
  · intro hfew
    exact ⟨d.tests, (judged_judge h).2.2 hfew⟩

end Design

namespace Review

/-- The last definition that starts a program counts for a thousand tests, and those behind it count
as well. So the complaint comes exactly if more are required than these. -/
theorem program_counts_for_tests (forms : List Form) (threshold : Int) :
    ∃ s : Segmentation forms, (∀ other : Segmentation forms, other = s) ∧
      ∃ warnings designs,
        (ofProgram forms threshold).sections = .opening warnings :: designs.map .design ∧
        List.Forall₂ (fun d b =>
          (∃ f ∈ b.body, ∃ e, Definition.ofForm? f = some e ∧ e.isTemplate = false ∧
            e.body.HasCall "big-bang".toList) →
          ∃ before f after, b.body = before ++ f :: after ∧ f.startsProgram = true ∧
            (∀ g ∈ after, g.startsProgram = false) ∧
            d.tests = 1000 + after.countP Form.isTest ∧
            (d.LacksTests ↔ 1000 + (after.countP Form.isTest : Int) < threshold))
          designs s.blocks := by
  obtain ⟨s⟩ : Nonempty (Segmentation forms) := inferInstance
  refine ⟨s, fun other => Subsingleton.elim other s, _, _, sections_ofProgram s threshold, ?_⟩
  rw [List.forall₂_map_left_iff, List.forall₂_same]
  intro b _ hprogram
  obtain ⟨before, f, after, hbody, hf, hafter⟩ :=
    exists_last_of_exists (p := Form.startsProgram) (by simpa only [Form.startsProgram_iff])
  have htests := Block.tests_of_program hbody hf hafter
  have hbare : ¬b.IsBare := by
    rintro ⟨-, hnone⟩
    simp [hnone] at hbody
  have hdraft : ((b.draft Definition.inspect).tests : Int) =
      1000 + (after.countP Form.isTest : Int) := by
    rw [Block.draft, htests, Nat.cast_add]
    rfl
  refine ⟨before, f, after, hbody, hf, hafter, ?_⟩
  rw [Block.design, if_neg hbare, Design.lacksTests_judge_iff b.head?_text_of_mem_draft, hdraft]
  exact ⟨htests, Iff.rfl⟩

/-- `(define (f x) (big-bang x))` -/
def starter : Form :=
  .list [.atom .identifier "define".toList,
    .list [.atom .identifier ['f'], .atom .identifier ['x']],
    .list [.atom .identifier "big-bang".toList, .atom .identifier ['x']]]

theorem ofForm?_starter :
    Definition.ofForm? starter = some ⟨['f'], [['x']], false,
      .list [.atom .identifier "big-bang".toList, .atom .identifier ['x']]⟩ := by
  cbv

theorem exists_definition_starter :
    ∃ f ∈ [starter], ∃ e, Definition.ofForm? f = some e ∧ e.isTemplate = false ∧
      e.body.HasCall "big-bang".toList :=
  ⟨starter, List.mem_singleton_self _, _, ofForm?_starter, rfl, _, .inl rfl⟩

theorem fits_starter {signature : Form} (h : Signature.name? signature = some ['f']) :
    Block.Fits ⟨['f'], signature, [], [starter]⟩ [] :=
  Block.fits_of_definition h (by simp) ofForm?_starter

/-- Without tests a program has as many as are required up to a thousand. -/
theorem program_counts_for_tests_of_starter :
    (∃ warnings d, (ofProgram [.atom .lineComment ";f:A -> B".toList, starter] 1000).sections =
      [.opening warnings, .design d] ∧ d.tests = 1000 ∧ ¬d.LacksTests) ∧
    ∃ warnings d, (ofProgram [.atom .lineComment ";f:A -> B".toList, starter] 1001).sections =
      [.opening warnings, .design d] ∧ d.tests = 1000 ∧ d.LacksTests := by
  have hsignature := Signature.name?_short
  generalize Form.atom .lineComment ";f:A -> B".toList = signature at hsignature ⊢
  have hcounts (threshold : Int) : ∃ warnings d,
      (ofProgram [signature, starter] threshold).sections = [.opening warnings, .design d] ∧
        d.tests = 1000 ∧ (d.LacksTests ↔ 1000 < threshold) := by
    obtain ⟨s, hunique, warnings, designs, hsections, hdesigns⟩ :=
      program_counts_for_tests [signature, starter] threshold
    have hs := hunique ⟨[], [_], by simp, .cons (fits_starter hsignature) .nil, rfl⟩
    rw [← hs] at hdesigns
    rcases hdesigns with _ | ⟨hdesign, _ | _⟩
    obtain ⟨before, f, after, hbody, -, -, htests, hlacks⟩ := hdesign exists_definition_starter
    -- the definition is the last form, so no test stands behind it
    obtain rfl : after = [] := by
      have hlength : 1 = before.length + (after.length + 1) := by
        simpa using congrArg List.length hbody
      exact List.eq_nil_of_length_eq_zero (by omega)
    exact ⟨warnings, _, hsections, htests, hlacks⟩
  constructor
  · obtain ⟨warnings, d, hsections, htests, hlacks⟩ := hcounts 1000
    exact ⟨warnings, d, hsections, htests, by rw [hlacks]; decide⟩
  · obtain ⟨warnings, d, hsections, htests, hlacks⟩ := hcounts 1001
    exact ⟨warnings, d, hsections, htests, by rw [hlacks]; decide⟩

/-- A program is told that it has too few tests if more than a thousand are required. -/
theorem exists_program_that_lacks_tests :
    ¬∀ (forms : List Form) (threshold : ℕ) (s : Segmentation forms) (warnings : List Warning)
      (designs : List Design),
      (ofProgram forms threshold).sections = .opening warnings :: designs.map .design →
      List.Forall₂ (fun d b =>
        (∃ f ∈ b.body, ∃ e, Definition.ofForm? f = some e ∧ e.isTemplate = false ∧
          e.body.HasCall "big-bang".toList) → ¬d.LacksTests) designs s.blocks := by
  intro h
  have hfits := fits_starter Signature.name?_short
  have hdesigns := h _ 1001 ⟨[], [_], by simp, .cons hfits .nil, rfl⟩ [] [_]
    (sections_of_block hfits 1001)
  rcases hdesigns with _ | ⟨hexempt, -⟩
  apply hexempt exists_definition_starter
  rw [Block.design, if_neg (by simp [Block.IsBare]),
    Design.lacksTests_judge_iff (Block.head?_text_of_mem_draft _)]
  have hstarts : starter.startsProgram = true :=
    Form.startsProgram_iff.2 ⟨_, ofForm?_starter, rfl, _, .inl rfl⟩
  rw [Block.draft, @Block.tests_of_program _ [] [] _ rfl hstarts (by simp)]
  decide

end Review

end DesignRecipe
