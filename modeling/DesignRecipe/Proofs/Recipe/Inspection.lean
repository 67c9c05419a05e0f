import DesignRecipe.Proofs.Form.LocalDepth
import DesignRecipe.Recipe.Locals
import Mathlib.Data.List.Basic
import Mathlib.Tactic.SplitIfs

/-!
# Inspecting local definitions

A review asks its inspector about the definitions in its queue and about nothing else. The
definitions of a `local` form lie inside the body in which the form stands, and that form is not
around anything in them. So inspection as deep as `local` forms nest is inspection to any greater
depth, and inspection is the one inspector that satisfies the equation one would define it by.
-/
namespace DesignRecipe

/-! ### What a review asks -/

/-- The inspectors say the same about the definitions, templates apart, among some forms. -/
def Inspector.Agree (inspect inspect' : Inspector) (forms : List Form) : Prop :=
  ∀ f ∈ forms, ∀ e, Definition.ofForm? f = some e → e.isTemplate = false → inspect e = inspect' e

theorem Inspector.Agree.mono {inspect inspect' : Inspector} {forms more : List Form}
    (h : inspect.Agree inspect' more) (hsub : forms ⊆ more) : inspect.Agree inspect' forms :=
  fun f hf => h f (hsub hf)

namespace Review

variable {inspect inspect' : Inspector} {r : Review} {f : Form} {forms : List Form}

theorem noteDefinition_congr {e : Definition} (h : e.isTemplate = false → inspect e = inspect' e)
    (owner : Option Text) :
    r.noteDefinition inspect owner e = r.noteDefinition inspect' owner e := by
  cases htemplate : e.isTemplate with
  | true => rw [noteDefinition, noteDefinition, if_pos htemplate, if_pos htemplate]
  | false => rw [noteDefinition, noteDefinition, h htemplate]

theorem noteStray_congr (h : inspect.Agree inspect' [f]) :
    r.noteStray inspect f = r.noteStray inspect' f := by
  unfold noteStray
  cases he : Definition.ofForm? f with
  | none => rfl
  | some e => exact noteDefinition_congr (h f (List.mem_singleton_self f) e he) none

theorem noteMember_congr (h : inspect.Agree inspect' [f]) (name : Text) :
    r.noteMember inspect name f = r.noteMember inspect' name f := by
  unfold noteMember
  cases he : Definition.ofForm? f with
  | none => rfl
  | some e => exact noteDefinition_congr (h f (List.mem_singleton_self f) e he) (some name)

theorem seekSignatureIn_congr (h : inspect.Agree inspect' forms) :
    r.seekSignatureIn inspect forms = r.seekSignatureIn inspect' forms := by
  induction forms generalizing r with
  | nil => rfl
  | cons f forms ih =>
    have hf : inspect.Agree inspect' [f] := h.mono (by simp)
    have hforms : inspect.Agree inspect' forms := h.mono (List.subset_cons_self f forms)
    rw [seekSignatureIn, seekSignatureIn, noteStray_congr hf, ih hforms]

theorem readTestsIn_congr (h : inspect.Agree inspect' forms) (name : Text) :
    r.readTestsIn inspect name forms = r.readTestsIn inspect' name forms := by
  induction forms generalizing r with
  | nil => rfl
  | cons f forms ih =>
    have hf : inspect.Agree inspect' [f] := h.mono (by simp)
    have hforms : inspect.Agree inspect' forms := h.mono (List.subset_cons_self f forms)
    rw [readTestsIn, readTestsIn, noteMember_congr hf, ih hforms]

theorem readTests_congr (h : inspect.Agree inspect' r.queue) :
    r.readTests inspect = r.readTests inspect' := by
  unfold readTests
  cases r.designs with
  | nil => rfl
  | cons d earlier => exact readTestsIn_congr h d.name

theorem finishDesign_congr (h : inspect.Agree inspect' r.queue) :
    r.finishDesign inspect = r.finishDesign inspect' := by
  rw [finishDesign, finishDesign, readTests_congr (h.mono (List.dropWhile_suffix _).subset)]

/-- A review depends on what its inspector says about the definitions in its queue. -/
theorem complete_congr (h : inspect.Agree inspect' r.queue) :
    r.complete inspect = r.complete inspect' := by
  fun_induction complete inspect r with
  | case1 r hnil => rw [complete_of_nil inspect' hnil]
  | case2 r hne opened hopened =>
    have hseek : opened = r.seekSignature inspect' := seekSignatureIn_congr h
    rw [complete_of_ne_nil inspect' hne, ← hseek, if_pos hopened]
  | case3 r hne opened hopened _ ih =>
    have hseek : opened = r.seekSignature inspect' := seekSignatureIn_congr h
    have hbehind : opened.queue ⊆ r.queue :=
      ((queue_seekSignatureIn_suffix inspect r.queue).trans (List.tail_suffix _)).subset
    have hfinish := finishDesign_congr (h.mono hbehind)
    have hrest := ih (h.mono fun f hf =>
      hbehind ((queue_finishDesign_suffix inspect opened).subset hf))
    rw [complete_of_ne_nil inspect' hne, ← hseek, if_neg hopened, hrest, hfinish]

end Review

/-! ### Local forms -/

namespace Definition

variable {inspect inspect' : Inspector} {d : Definition} {forms : List Form}

theorem mem_localForms_iff :
    forms ∈ d.localForms ↔ ∃ call ∈ d.body.calls, call.localForms? = some forms :=
  List.mem_filterMap

theorem body_within {f : Form} {e : Definition} (h : ofForm? f = some e) : e.body.Within f := by
  unfold ofForm? at h
  split at h
  · split_ifs at h
    split at h
    · cases h
      exact .item (by simp)
    · cases h
  · cases h

theorem localDepth_body_le {f : Form} {e : Definition} (hf : f ∈ forms) (he : ofForm? f = some e) :
    e.body.localDepth ≤ Form.localDepthOfAll forms :=
  (body_within he).localDepth_le.trans (Form.localDepth_le_localDepthOfAll hf)

/-- The `local` form that definitions stand in is on no way down from them. -/
theorem localDepthOfAll_lt_of_mem_localForms (h : forms ∈ d.localForms) :
    Form.localDepthOfAll forms < d.body.localDepth := by
  obtain ⟨call, hcall, hforms⟩ := mem_localForms_iff.1 h
  exact Form.localDepthOfAll_lt hcall hforms

theorem foldl_andThen (say : List Form → Findings) (found : Findings) (items : List (List Form)) :
    (items.foldl (fun found forms => found.andThen (say forms)) found).warnings =
      found.warnings ++ items.flatMap fun forms => (say forms).warnings := by
  induction items generalizing found with
  | nil => simp
  | cons forms items ih =>
    rw [List.foldl_cons, ih, List.flatMap_cons, ← List.append_assoc]
    rfl

theorem warnings_inspectWith (inspect : Inspector) (d : Definition) :
    (inspectWith inspect d).warnings =
      d.localForms.flatMap fun forms =>
        ((Review.ofForms forms 0).complete inspect).localWarnings := by
  rw [inspectWith, foldl_andThen]
  rfl

theorem inspectWith_congr (h : ∀ forms ∈ d.localForms, inspect.Agree inspect' forms) :
    inspectWith inspect d = inspectWith inspect' d := by
  unfold inspectWith
  apply List.foldl_ext
  intro found forms hforms
  rw [Review.localFindings, Review.localFindings, Review.complete_congr (h forms hforms)]

theorem inspectWith_of_localForms_eq_nil (inspect : Inspector) (h : d.localForms = []) :
    inspectWith inspect d = .none := by
  rw [inspectWith, h]
  rfl

/-- What inspectors find that go down level by level is settled at the level to which `local` forms
nest, and it is the same for all that find the same where there are no `local` forms. -/
theorem eq_of_localDepth_le (inspect inspect' : ℕ → Inspector)
    (hstart : ∀ d, d.localForms = [] → inspect 0 d = inspect' 0 d)
    (hstep : ∀ level, inspect (level + 1) = inspectWith (inspect level))
    (hstep' : ∀ level, inspect' (level + 1) = inspectWith (inspect' level)) {level : ℕ}
    (h : d.body.localDepth ≤ level) : inspect level d = inspect' level d := by
  induction level generalizing d with
  | zero =>
    apply hstart
    rw [List.eq_nil_iff_forall_not_mem]
    intro forms hforms
    have hlt := localDepthOfAll_lt_of_mem_localForms hforms
    omega
  | succ level ih =>
    rw [hstep, hstep']
    apply inspectWith_congr
    intro forms hforms f hf e he _
    have hlt := localDepthOfAll_lt_of_mem_localForms hforms
    have hle := localDepth_body_le hf he
    exact ih (by omega)

/-- Inspection that goes deep enough finds nothing further down. -/
theorem inspectTo_succ {level : ℕ} (h : d.body.localDepth ≤ level) :
    inspectTo (level + 1) d = inspectTo level d :=
  eq_of_localDepth_le (fun level => inspectTo (level + 1)) inspectTo
    (fun _ hnone => inspectWith_of_localForms_eq_nil _ hnone) (fun _ => rfl) (fun _ => rfl) h

theorem inspectTo_eq {level : ℕ} (h : d.body.localDepth ≤ level) :
    inspectTo level d = inspectTo d.body.localDepth d := by
  induction h with
  | refl => rfl
  | step h ih => rw [inspectTo_succ h, ih]

theorem inspectTo_eq_inspect {level : ℕ} (h : d.body.localDepth ≤ level) :
    inspectTo level d = d.inspect := by
  rw [inspect, inspectTo_eq h, inspectTo_eq (Form.localDepth_le_depth d.body)]

/-- Inspection of a definition inspects the definitions in its `local` forms. -/
theorem inspect_eq (d : Definition) : d.inspect = inspectWith Definition.inspect d := by
  rw [← inspectTo_eq_inspect (Nat.le_succ d.body.localDepth)]
  apply inspectWith_congr
  intro forms hforms f hf e he _
  have hlt := localDepthOfAll_lt_of_mem_localForms hforms
  have hle := localDepth_body_le hf he
  exact inspectTo_eq_inspect (by omega)

/-- No other inspector inspects in this way. -/
theorem inspect_unique {inspect : Inspector} (h : ∀ e, inspect e = inspectWith inspect e)
    (d : Definition) : inspect d = d.inspect := by
  have hsame : inspectTo d.body.localDepth d = inspect d :=
    eq_of_localDepth_le inspectTo (fun _ => inspect)
      (fun e hnone => ((h e).trans (inspectWith_of_localForms_eq_nil inspect hnone)).symm)
      (fun _ => rfl) (fun _ => funext h) (Nat.le_refl _)
  rw [← hsame, inspectTo_eq_inspect (Nat.le_refl _)]

theorem warnings_inspect (d : Definition) :
    d.inspect.warnings =
      d.localForms.flatMap fun forms => (Review.ofProgram forms 0).localWarnings := by
  rw [inspect_eq, warnings_inspectWith]
  rfl

/-- Every warning about the inside of a definition is one of a `local` form, seen from around the
form. -/
theorem exists_within_of_mem_inspectWith {inspect : Inspector} {w : Warning}
    (h : w ∈ (inspectWith inspect d).warnings) :
    ∃ forms ∈ d.localForms, ∃ s ∈ ((Review.ofForms forms 0).complete inspect).sections,
      ∃ v ∈ s.warnings, w = v.within s.place := by
  rw [warnings_inspectWith, List.mem_flatMap] at h
  obtain ⟨forms, hforms, hw⟩ := h
  obtain ⟨s, hs, hw⟩ := List.mem_flatMap.1 hw
  obtain ⟨v, hv, rfl⟩ := List.mem_map.1 hw
  exact ⟨forms, hforms, s, hs, v, hv, rfl⟩

theorem exists_within_of_mem_inspect {w : Warning} (h : w ∈ d.inspect.warnings) :
    ∃ forms ∈ d.localForms, ∃ s ∈ (Review.ofProgram forms 0).sections,
      ∃ v ∈ s.warnings, w = v.within s.place := by
  rw [inspect_eq] at h
  exact exists_within_of_mem_inspectWith h

end Definition

end DesignRecipe
