import DesignRecipe.Proofs.Recipe.LocalPlaces

/-!
# Reviews inside reviews

A review asks its inspector about the definitions among its forms, and the inspector starts a review
of its own for every `local` form in such a definition. Whatever is reviewed there has one `local`
form less on its ways down, so that reviews nest no deeper than `local` forms do. An inspector that
refuses to look any deeper is as good as one that looks down to the bottom.
-/
namespace DesignRecipe

open Form

/-! ### What a review asks about -/

namespace Review

/-- The outcome of a review of the forms depends on what is said about the inside of the
definition. -/
def AsksAbout (forms : List Form) (e : Definition) : Prop :=
  ∃ (threshold : Int) (inspect inspect' : Inspector),
    (∀ other, other ≠ e → inspect other = inspect' other) ∧
      (ofForms forms threshold).complete inspect ≠ (ofForms forms threshold).complete inspect'

variable {forms : List Form} {threshold : Int} {inspect : Inspector} {f : Form} {e : Definition}
  {w : Warning}

theorem mem_strayWarnings_of_inspect (hf : Definition.ofForm? f = some e)
    (htemplate : e.isTemplate = false) (hw : w ∈ (inspect e).warnings) :
    w ∈ strayWarnings inspect f := by
  simp [strayWarnings, hf, htemplate, hw]

theorem mem_memberWarnings_of_inspect (hf : Definition.ofForm? f = some e)
    (htemplate : e.isTemplate = false) (hw : w ∈ (inspect e).warnings) (name : Text) :
    w ∈ memberWarnings inspect name f := by
  simp [memberWarnings, hf, htemplate, hw]

/-- What is found inside a definition, wherever the definition stands, is said in some section. -/
theorem exists_section_of_inspect (threshold : Int) (hmem : f ∈ forms)
    (hf : Definition.ofForm? f = some e) (htemplate : e.isTemplate = false)
    (hw : w ∈ (inspect e).warnings) :
    ∃ s ∈ ((ofForms forms threshold).complete inspect).sections, w ∈ s.warnings := by
  obtain ⟨parts⟩ : Nonempty (Segmentation forms) := inferInstance
  rw [sections_complete inspect parts]
  rcases parts.mem_opening_or_body_of_definition hmem hf with hopening | ⟨b, hb, hbody⟩
  · have hsaid : w ∈ parts.opening.flatMap (strayWarnings inspect) :=
      List.mem_flatMap.2 ⟨f, hopening, mem_strayWarnings_of_inspect hf htemplate hw⟩
    exact ⟨_, List.mem_cons_self, hsaid⟩
  · have hsaid : w ∈ (b.draft inspect).warnings :=
      List.mem_flatMap.2 ⟨f, hbody, mem_memberWarnings_of_inspect hf htemplate hw b.name⟩
    refine ⟨.design (b.design inspect threshold), List.mem_cons_of_mem _ ?_, ?_⟩
    · exact List.mem_map_of_mem (List.mem_map_of_mem hb)
    · rw [Block.design]
      split_ifs
      · exact hsaid
      · exact List.mem_append_left _ hsaid

/-- A review without findings inside of definitions gives warnings without a place only. -/
theorem place_eq_none_of_mem_sections {s : Section}
    (hs : s ∈ ((ofForms forms threshold).complete fun _ => .none).sections) :
    ∀ w ∈ s.warnings, w.place = none := by
  refine forall_mem_warnings ?_ ?_ (fun _ _ _ => rfl) hs
  · intro f _
    exact forall_mem_strayWarnings (fun _ _ => rfl) rfl (fun _ _ => nofun)
  · intro f _ name _
    exact forall_mem_memberWarnings (fun _ _ => rfl) rfl (fun _ _ => nofun)

/-- A review asks about the definitions among its forms, templates apart, and about all of these. -/
theorem asksAbout_iff :
    AsksAbout forms e ↔ ∃ f ∈ forms, Definition.ofForm? f = some e ∧ e.isTemplate = false := by
  constructor
  · rintro ⟨threshold, inspect, inspect', hother, hne⟩
    by_contra hnone
    apply hne
    apply complete_congr
    intro f hf other hdefinition htemplate
    apply hother
    rintro rfl
    exact hnone ⟨f, hf, hdefinition, htemplate⟩
  · rintro ⟨f, hmem, hf, htemplate⟩
    classical
    let found : Findings := ⟨[⟨some .opening, .noPurpose⟩], []⟩
    refine ⟨0, fun _ => .none, Function.update (fun _ => .none) e found, ?_, ?_⟩
    · intro other hother
      rw [Function.update_of_ne hother]
    · intro heq
      have hw : ⟨some .opening, .noPurpose⟩ ∈
          (Function.update (fun _ => Findings.none) e found e).warnings := by
        rw [Function.update_self]
        exact List.mem_singleton_self _
      obtain ⟨s, hs, hsaid⟩ := exists_section_of_inspect 0 hmem hf htemplate hw
      rw [← heq] at hs
      cases place_eq_none_of_mem_sections hs _ hsaid

end Review

/-! ### Levels of review -/

/-- What is reviewed on behalf of a definition stands in it. -/
theorem Definition.within_of_mem_localForms {f g : Form} {e : Definition} {inner : List Form}
    (hf : ofForm? f = some e) (hinner : inner ∈ e.localForms) (hg : g ∈ inner) : Within g f := by
  obtain ⟨call, hcall, hforms⟩ := mem_localForms_iff.1 hinner
  exact (within_of_localForms? hcall hforms hg).trans (body_within hf)

namespace Review

variable {forms nodes inner : List Form} {e : Definition} {level : ℕ}

/-- On the way to a review of the forms, a review of the nodes is started at a level of nesting. For
each definition that a review asks about, its `local` forms are reviewed one level further in. -/
inductive Started (forms : List Form) : ℕ → List Form → Prop
  | outer : Started forms 0 forms
  | inner {level : ℕ} {nodes inner : List Form} {e : Definition} :
    Started forms level nodes → AsksAbout nodes e → inner ∈ e.localForms →
      Started forms (level + 1) inner

/-- Going in by one level uses up a `local` form on every way down. -/
theorem localDepthOfAll_lt_of_asksAbout (h : AsksAbout nodes e) (hinner : inner ∈ e.localForms) :
    localDepthOfAll inner < localDepthOfAll nodes := by
  obtain ⟨f, hmem, hf, -⟩ := asksAbout_iff.1 h
  calc localDepthOfAll inner < e.body.localDepth :=
        Definition.localDepthOfAll_lt_of_mem_localForms hinner
    _ ≤ localDepthOfAll nodes := Definition.localDepth_body_le hmem hf

theorem Started.level_add_le (h : Started forms level nodes) :
    level + localDepthOfAll nodes ≤ localDepthOfAll forms := by
  induction h with
  | outer => exact Nat.le_of_eq (Nat.zero_add _)
  | inner _ hasks hinner ih =>
    have hlt := localDepthOfAll_lt_of_asksAbout hasks hinner
    omega

theorem complete_inspectTo_localDepthOfAll (forms : List Form) (threshold : Int) :
    (ofForms forms threshold).complete (Definition.inspectTo (localDepthOfAll forms)) =
      ofProgram forms threshold := by
  apply complete_congr
  intro f hf e he _
  exact Definition.inspectTo_eq_inspect (Definition.localDepth_body_le hf he)

/-- Reviews nest no deeper than `local` forms: no review is started at a level that exceeds the
greatest number of `local` forms on one way down, the forms reviewed for a definition stand in it,
and a review whose inspector stops at that level is a review whose inspector never stops. -/
theorem local_nesting_bounds_reviews (forms : List Form) (threshold : Int) :
    IsGreatest {n | ∃ way, Way forms way ∧ way.countP isLocal = n} (localDepthOfAll forms) ∧
      (∀ level nodes, Started forms level nodes → level ≤ localDepthOfAll forms ∧
        ∀ e, AsksAbout nodes e → ∃ f ∈ nodes, Definition.ofForm? f = some e ∧
          ∀ inner ∈ e.localForms, ∀ g ∈ inner, Within g f) ∧
      (ofForms forms threshold).complete (Definition.inspectTo (localDepthOfAll forms)) =
        ofProgram forms threshold ∧
      ∀ inspect : Inspector, (∀ e, inspect e = Definition.inspectWith inspect e) →
        (ofForms forms threshold).complete (Definition.inspectTo (localDepthOfAll forms)) =
          (ofForms forms threshold).complete inspect := by
  have hcut := complete_inspectTo_localDepthOfAll forms threshold
  refine ⟨isGreatest_localDepthOfAll forms, ?_, hcut, ?_⟩
  · intro level nodes hstarted
    refine ⟨(Nat.le_add_right _ _).trans hstarted.level_add_le, ?_⟩
    intro e hasks
    obtain ⟨f, hmem, hf, -⟩ := asksAbout_iff.1 hasks
    refine ⟨f, hmem, hf, ?_⟩
    intro inner hinner g hg
    exact Definition.within_of_mem_localForms hf hinner hg
  · intro inspect hinspect
    have hinspector : inspect = Definition.inspect := funext (Definition.inspect_unique hinspect)
    rw [hcut, hinspector, ofProgram]

/-- With a `local` form in a `local` form, the definition inside is reviewed at the second level. -/
theorem local_nesting_bounds_reviews_of_nested :
    let define (name : Char) (body : Form) : Form :=
      .list [.atom .identifier "define".toList, .list [.atom .identifier [name]], body]
    let locally (f : Form) : Form := .list [.atom .identifier "local".toList, .list [f], .list []]
    let innermost := define 'k' (.list [])
    let e : Definition := ⟨['h'], [], false, locally innermost⟩
    let forms := [define 'g' (locally (define 'h' e.body))]
    localDepthOfAll forms = 2 ∧ Started forms 2 [innermost] ∧ 2 ≤ localDepthOfAll forms ∧
      (AsksAbout [define 'h' e.body] e ∧ ∃ f ∈ [define 'h' e.body], Definition.ofForm? f = some e ∧
        ∀ inner ∈ e.localForms, ∀ g ∈ inner, Within g f) ∧
      (∀ other, Definition.inspect other = Definition.inspectWith Definition.inspect other) ∧
      (ofForms forms 1).complete (Definition.inspectTo (localDepthOfAll forms)) =
        (ofForms forms 1).complete Definition.inspect := by
  intro define locally innermost e forms
  let d : Definition := ⟨['g'], [], false, locally (define 'h' e.body)⟩
  have houter : AsksAbout forms d := asksAbout_iff.2 ⟨_, List.mem_cons_self, rfl, rfl⟩
  have hasks : AsksAbout [define 'h' e.body] e := asksAbout_iff.2 ⟨_, List.mem_cons_self, rfl, rfl⟩
  have hfirst : [define 'h' e.body] ∈ d.localForms := List.mem_cons_self
  have hsecond : [innermost] ∈ e.localForms := List.mem_cons_self
  have hstarted : Started forms 1 [define 'h' e.body] := .inner .outer houter hfirst
  have hinner : Started forms 2 [innermost] := .inner hstarted hasks hsecond
  have hdepth : localDepthOfAll forms = 2 := by
    simp [forms, e, innermost, define, locally, localDepth, localDepthOfAll, isLocal, isNamed, name?]
  obtain ⟨-, hlevels, -, hcut⟩ := local_nesting_bounds_reviews forms 1
  exact ⟨hdepth, hinner, (hlevels 2 _ hinner).1, ⟨hasks, (hlevels 1 _ hstarted).2 e hasks⟩,
    Definition.inspect_eq, hcut Definition.inspect Definition.inspect_eq⟩

end Review
end DesignRecipe
