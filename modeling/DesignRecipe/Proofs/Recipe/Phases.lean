import DesignRecipe.Proofs.Recipe.Ledger
import Mathlib.Data.List.Infix

/-!
# What a phase does to a ledger

A phase works on the current section and keeps what it finds: what was said stays said, and the
sections in front are left alone. Only the search for a signature adds a section, and it leaves
nothing in the queue without having added one. So a complete review finds the design that it needs
in each of its rounds.
-/
namespace DesignRecipe

namespace Design

/-- The name is kept, and nothing is taken back that was counted or said. The number of tests may
change in any way. -/
structure Extends (d e : Design) : Prop where
  name : e.name = d.name
  purposeLines : d.purposeLines ≤ e.purposeLines
  warnings : d.warnings <+: e.warnings

variable (d : Design)

theorem Extends.refl : d.Extends d := ⟨rfl, le_rfl, List.prefix_rfl⟩

theorem Extends.trans {d e f : Design} (hde : d.Extends e) (hef : e.Extends f) : d.Extends f :=
  ⟨hef.name.trans hde.name, hde.purposeLines.trans hef.purposeLines,
    hde.warnings.trans hef.warnings⟩

theorem extends_warn (ws : List Warning) : d.Extends (d.warn ws) :=
  ⟨rfl, le_rfl, List.prefix_append _ _⟩

theorem extends_addPurposeLines (n : ℕ) : d.Extends (d.addPurposeLines n) :=
  ⟨rfl, Nat.le_add_right _ _, List.prefix_rfl⟩

theorem extends_countTest : d.Extends d.countTest := ⟨rfl, le_rfl, List.prefix_rfl⟩

theorem extends_exempt : d.Extends d.exempt := ⟨rfl, le_rfl, List.prefix_rfl⟩

theorem extends_judge (threshold : Int) : d.Extends (d.judge threshold) := d.extends_warn _

end Design

namespace Section

/-- A section is followed by one of its kind that has all that it has. -/
inductive Extends : Section → Section → Prop
  | opening {ws more : List Warning} : ws <+: more → Extends (.opening ws) (.opening more)
  | design {d e : Design} : d.Extends e → Extends (.design d) (.design e)

theorem Extends.refl (s : Section) : s.Extends s := by
  cases s with
  | opening ws => exact .opening List.prefix_rfl
  | design d => exact .design (.refl d)

theorem Extends.trans {s t u : Section} (hst : s.Extends t) (htu : t.Extends u) : s.Extends u := by
  cases hst with
  | opening h =>
    cases htu with
    | opening h' => exact .opening (h.trans h')
  | design h =>
    cases htu with
    | design h' => exact .design (h.trans h')

theorem extends_warn (s : Section) (ws : List Warning) : s.Extends (s.warn ws) := by
  cases s with
  | opening before => exact .opening (List.prefix_append _ _)
  | design d => exact .design (d.extends_warn ws)

theorem extends_amend {change : Design → Design} (h : ∀ d : Design, d.Extends (change d))
    (s : Section) : s.Extends (s.amend change) := by
  cases s with
  | opening ws => exact .refl _
  | design d => exact .design (h d)

end Section

namespace Ledger

/-- The current section is worked on and stays the last one. Forms leave the queue from the
front. -/
structure Continues (l l' : Ledger) : Prop where
  past : l'.past = l.past
  current : l.current.Extends l'.current
  templates : l.templates <+: l'.templates
  queue : l'.queue <:+ l.queue
  threshold : l'.threshold = l.threshold

/-- The current section is worked on, and designs may be added behind it. -/
structure Grows (l l' : Ledger) : Prop where
  sections : ∃ current added,
    l'.sections = l.past ++ current :: List.map .design added ∧ l.current.Extends current
  templates : l.templates <+: l'.templates
  queue : l'.queue <:+ l.queue
  threshold : l'.threshold = l.threshold

/-- There is a current design. -/
def InDesign (l : Ledger) : Prop := ∃ d, l.current = .design d

variable {l l' l'' : Ledger}

theorem Continues.refl (l : Ledger) : l.Continues l :=
  ⟨rfl, .refl _, List.prefix_rfl, List.suffix_rfl, rfl⟩

theorem Continues.trans (h : l.Continues l') (h' : l'.Continues l'') : l.Continues l'' :=
  ⟨h'.past.trans h.past, h.current.trans h'.current, h.templates.trans h'.templates,
    h'.queue.trans h.queue, h'.threshold.trans h.threshold⟩

theorem Continues.inDesign (h : l.Continues l') (hl : l.InDesign) : l'.InDesign := by
  obtain ⟨d, hd⟩ := hl
  have hcurrent := h.current
  rw [hd] at hcurrent
  generalize hs : l'.current = s at hcurrent
  cases hcurrent with
  | design => exact ⟨_, hs⟩

theorem Continues.grows (h : l.Continues l') : l.Grows l' :=
  ⟨⟨l'.current, [], by rw [sections, h.past]; rfl, h.current⟩, h.templates, h.queue, h.threshold⟩

theorem Grows.refl (l : Ledger) : l.Grows l := (Continues.refl l).grows

theorem Grows.trans (h : l.Grows l') (h' : l'.Grows l'') : l.Grows l'' := by
  obtain ⟨current, added, hsections, hcurrent⟩ := h.sections
  obtain ⟨current', added', hsections', hcurrent'⟩ := h'.sections
  refine ⟨?_, h.templates.trans h'.templates, h'.queue.trans h.queue,
    h'.threshold.trans h.threshold⟩
  rcases List.eq_nil_or_concat added with rfl | ⟨before, d, rfl⟩
  · -- the same section is worked on
    obtain ⟨hpast, hsame⟩ := List.append_inj' hsections rfl
    obtain rfl : l'.current = current := by simpa using hsame
    exact ⟨current', added', by rw [hsections', hpast], hcurrent.trans hcurrent'⟩
  · -- the last design that was added is worked on
    have hlast : l'.past ++ [l'.current] =
        (l.past ++ current :: before.map .design) ++ [.design d] := by
      rw [← Ledger.sections, hsections]
      simp
    obtain ⟨hpast, hsame⟩ := List.append_inj' hlast rfl
    have hd : l'.current = .design d := by simpa using hsame
    rw [hd] at hcurrent'
    cases hcurrent' with
    | @design _ e hde =>
      refine ⟨current, before ++ e :: added', ?_, hcurrent⟩
      rw [hsections', hpast]
      simp

theorem continues_withQueue {queue : List Form} (h : queue <:+ l.queue) :
    l.Continues (l.withQueue queue) :=
  ⟨rfl, .refl _, List.prefix_rfl, h, rfl⟩

theorem continues_remember (d : Definition) : l.Continues (l.remember d) :=
  ⟨rfl, .refl _, List.prefix_append _ _, List.suffix_rfl, rfl⟩

theorem continues_warn (ws : List Warning) : l.Continues (l.warn ws) :=
  ⟨rfl, l.current.extends_warn ws, List.prefix_rfl, List.suffix_rfl, rfl⟩

theorem continues_amend {change : Design → Design} (h : ∀ d : Design, d.Extends (change d)) :
    l.Continues (l.amend change) :=
  ⟨rfl, Section.extends_amend h l.current, List.prefix_rfl, List.suffix_rfl, rfl⟩

theorem grows_openDesign (name : Text) : l.Grows (l.openDesign name) :=
  ⟨⟨l.current, [.ofName name], by simp [sections, openDesign], .refl _⟩, List.prefix_rfl,
    List.suffix_rfl, rfl⟩

end Ledger

namespace Phase

/-- What is asked about the inside of definitions is answered. -/
def Answered (ask : Inquiry) : Prop := ∀ d, ∃ ws, ask d = .ok ws

open Ledger

variable {ask : Inquiry} {l : Ledger}

/-- Forms are noted in the current section, without a look at the queue. -/
theorem exists_run_noteDefinition (h : Answered ask) (owner : Option Text) (d : Definition)
    (l : Ledger) :
    ∃ l', (noteDefinition ask owner d).run l = .ok () l' ∧ l.Continues l' ∧
      l'.queue = l.queue := by
  by_cases htemplate : d.isTemplate = true
  · rw [noteDefinition, if_pos htemplate]
    exact ⟨_, rfl, continues_remember d, rfl⟩
  · obtain ⟨ws, hws⟩ := h d
    rw [noteDefinition, if_neg htemplate, run_modify_bind, run_modify_bind,
      run_bind_of_ok (run_inside hws _), run_modify]
    refine ⟨_, rfl, ?_, rfl⟩
    refine ((continues_amend ?_).trans (continues_warn _)).trans (continues_warn _)
    intro d'
    split_ifs
    · exact d'.extends_exempt
    · exact .refl d'

theorem exists_run_noteStray (h : Answered ask) (f : Form) (l : Ledger) :
    ∃ l', (noteStray ask f).run l = .ok () l' ∧ l.Continues l' ∧ l'.queue = l.queue := by
  unfold noteStray
  cases Definition.ofForm? f with
  | some d => exact exists_run_noteDefinition h none d l
  | none =>
    dsimp only
    split_ifs
    · exact ⟨_, rfl, continues_warn _, rfl⟩
    · exact ⟨l, rfl, .refl l, rfl⟩

theorem exists_run_noteMember (h : Answered ask) (name : Text) (f : Form) (l : Ledger) :
    ∃ l', (noteMember ask name f).run l = .ok () l' ∧ l.Continues l' ∧ l'.queue = l.queue := by
  unfold noteMember
  cases Definition.ofForm? f with
  | some d => exact exists_run_noteDefinition h (some name) d l
  | none =>
    cases f.tested? with
    | none => exact ⟨l, rfl, .refl l, rfl⟩
    | some actual =>
      exact ⟨_, rfl, (continues_amend Design.extends_countTest).trans (continues_warn _), rfl⟩

/-- The search for a signature is never refused, and if it leaves anything in the queue it has
found one. -/
theorem exists_run_seekSignatureIn (h : Answered ask) {forms : List Form}
    (hl : l.queue = forms) :
    ∃ l', (seekSignatureIn ask forms).run l = .ok () l' ∧ l.Grows l' ∧
      l'.queue <:+ forms.tail ∧ (l'.queue ≠ [] → l'.InDesign) := by
  induction forms generalizing l with
  | nil => exact ⟨l, rfl, .refl l, by rw [hl]; exact List.suffix_rfl, fun hne => absurd hl hne⟩
  | cons f rest ih =>
    have hrest : rest <:+ l.queue := hl ▸ List.suffix_cons f rest
    have htaken : l.Grows (l.withQueue rest) := (continues_withQueue hrest).grows
    rw [seekSignatureIn, run_modify_bind]
    cases Signature.name? f with
    | some name =>
      exact ⟨_, rfl, htaken.trans (grows_openDesign name), List.suffix_rfl, fun _ => ⟨_, rfl⟩⟩
    | none =>
      obtain ⟨m, hm, hnoted, hqueue⟩ := exists_run_noteStray h f (l.withQueue rest)
      obtain ⟨l', hl', hgrows, hsuffix, hdesign⟩ := ih hqueue
      refine ⟨l', ?_, htaken.trans (hnoted.grows.trans hgrows),
        hsuffix.trans (List.tail_suffix rest), hdesign⟩
      rw [run_bind_of_ok hm, hl']

theorem run_design {d : Design} (h : l.current = .design d) : design.run l = .ok d l := by
  rw [design, run_get_bind, h]
  rfl

theorem run_design_of_opening {ws : List Warning} (h : l.current = .opening ws) :
    design.run l = .error .noDesign l := by
  rw [design, run_get_bind, h]
  rfl

theorem exists_run_readPurpose (h : l.InDesign) :
    ∃ l', readPurpose.run l = .ok () l' ∧ l.Continues l' := by
  obtain ⟨d, hd⟩ := h
  rw [readPurpose, run_bind_of_ok (run_design hd), run_get_bind, run_modify_bind, run_modify]
  refine ⟨_, rfl, (continues_amend ?_).trans (continues_withQueue ?_)⟩
  · intro d'
    exact d'.extends_addPurposeLines _
  · exact List.dropWhile_suffix _

theorem exists_run_readTestsIn (h : Answered ask) (name : Text) {forms : List Form}
    (hl : l.queue = forms) :
    ∃ l', (readTestsIn ask name forms).run l = .ok () l' ∧ l.Continues l' := by
  induction forms generalizing l with
  | nil => exact ⟨l, rfl, .refl l⟩
  | cons f rest ih =>
    rw [readTestsIn]
    split_ifs
    · exact ⟨l, rfl, .refl l⟩
    · have hrest : rest <:+ l.queue := hl ▸ List.suffix_cons f rest
      obtain ⟨m, hm, hnoted, hqueue⟩ := exists_run_noteMember h name f (l.withQueue rest)
      obtain ⟨l', hl', hothers⟩ := ih hqueue
      refine ⟨l', ?_, (continues_withQueue hrest).trans (hnoted.trans hothers)⟩
      rw [run_modify_bind, run_bind_of_ok hm, hl']

theorem exists_run_readTests (h : Answered ask) (hl : l.InDesign) :
    ∃ l', (readTests ask).run l = .ok () l' ∧ l.Continues l' := by
  obtain ⟨d, hd⟩ := hl
  rw [readTests, run_bind_of_ok (run_design hd), run_get_bind]
  exact exists_run_readTestsIn h d.name rfl

theorem exists_run_judge (h : l.InDesign) :
    ∃ l', judge.run l = .ok () l' ∧ l.Continues l' := by
  obtain ⟨d, hd⟩ := h
  rw [judge, run_bind_of_ok (run_design hd), run_modify]
  refine ⟨_, rfl, continues_amend ?_⟩
  intro d'
  exact d'.extends_judge _

theorem exists_run_seekSignature (h : Answered ask) (l : Ledger) :
    ∃ l', (seekSignature ask).run l = .ok () l' ∧ l.Grows l' ∧ l'.queue <:+ l.queue.tail ∧
      (l'.queue ≠ [] → l'.InDesign) := by
  rw [seekSignature, run_get_bind]
  exact exists_run_seekSignatureIn h rfl

theorem exists_run_finishDesign (h : Answered ask) (hl : l.InDesign) :
    ∃ l', (finishDesign ask).run l = .ok () l' ∧ l.Continues l' := by
  obtain ⟨described, hdescribed, hpurpose⟩ := exists_run_readPurpose hl
  obtain ⟨tested, htested, htests⟩ := exists_run_readTests h (hpurpose.inDesign hl)
  obtain ⟨judged, hjudged, hjudge⟩ := exists_run_judge ((hpurpose.trans htests).inDesign hl)
  refine ⟨judged, ?_, (hpurpose.trans htests).trans hjudge⟩
  rw [finishDesign, run_bind_of_ok hdescribed, run_bind_of_ok htested, hjudged]

/-- A round finds the design that it needs, and takes at least one form. -/
theorem exists_run_round (h : Answered ask) (hl : l.queue ≠ []) :
    ∃ l', (round ask).run l = .ok () l' ∧ l.Grows l' ∧ l'.queue.length < l.queue.length := by
  obtain ⟨opened, hopened, hgrows, hsuffix, hdesign⟩ := exists_run_seekSignature h l
  have hshorter : opened.queue.length < l.queue.length := by
    have hle := hsuffix.length_le
    have hpos := List.length_pos_iff.2 hl
    rw [List.length_tail] at hle
    omega
  rw [round, run_bind_of_ok hopened, run_get_bind]
  by_cases hempty : opened.queue = []
  · rw [if_pos hempty]
    exact ⟨opened, rfl, hgrows, hshorter⟩
  · obtain ⟨l', hl', hcontinues⟩ := exists_run_finishDesign h (hdesign hempty)
    rw [if_neg hempty]
    exact ⟨l', hl', hgrows.trans hcontinues.grows,
      hcontinues.queue.length_le.trans_lt hshorter⟩

theorem exists_run_rounds (h : Answered ask) {n : ℕ} (hn : l.queue.length ≤ n) :
    ∃ l', (rounds ask n).run l = .ok () l' ∧ l.Grows l' ∧ l'.queue = [] := by
  induction n generalizing l with
  | zero => exact ⟨l, rfl, .refl l, List.length_eq_zero_iff.1 (Nat.le_zero.1 hn)⟩
  | succ n ih =>
    rw [rounds, run_get_bind]
    by_cases hempty : l.queue = []
    · rw [if_pos hempty]
      exact ⟨l, rfl, .refl l, hempty⟩
    · obtain ⟨m, hm, hfirst, hshorter⟩ := exists_run_round h hempty
      obtain ⟨l', hl', hothers, hqueue⟩ := ih (l := m) (by omega)
      refine ⟨l', ?_, hfirst.trans hothers, hqueue⟩
      rw [if_neg hempty, run_bind_of_ok hm, hl']

/-- A complete review takes all forms, whatever it starts from. -/
theorem exists_run_complete (h : Answered ask) (l : Ledger) :
    ∃ l', (complete ask).run l = .ok () l' ∧ l.Grows l' ∧ l'.queue = [] := by
  rw [complete, run_get_bind]
  exact exists_run_rounds h le_rfl

theorem run_complete_of_nil (ask : Inquiry) (hl : l.queue = []) :
    (complete ask).run l = .ok () l := by
  rw [complete, run_get_bind, hl]
  rfl

end Phase

end DesignRecipe
