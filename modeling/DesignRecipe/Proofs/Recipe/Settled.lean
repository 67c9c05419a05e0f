import DesignRecipe.Proofs.Recipe.Moments
import DesignRecipe.Proofs.Recipe.Verdict

/-!
# Settled designs

Once a verdict is passed on a design, nothing is changed about it any more. The search for the next
signature works on the latest design too if it finds something in front of a signature, but the
tests of a design are only left at a signature, so there is nothing to be found.
-/
namespace DesignRecipe

/-- What is said about a design before the verdict. -/
inductive Warning.Interim : Warning → Prop
  | inside (place : LocalPlace) (w : Warning) : Interim (w.within place)
  | definition (name : Text) : Interim (.ofComplaint (.strayDefinition name))
  | test (name : Text) (f : Form) : Interim (.ofComplaint (.idleTest name f))

theorem Warning.Interim.head?_text {w : Warning} (h : w.Interim) :
    w.text.head? ≠ some 'n' ∧ w.text.head? ≠ some 'o' := by
  cases h with
  | inside place w => simp [LocalPlace.head?_text]
  | definition name => constructor <;> rintro ⟨⟩
  | test name f => constructor <;> rintro ⟨⟩

theorem Warning.Interim.not_prefix_text {w : Warning} (h : w.Interim) :
    ¬ "unexpected test: ".toList <+: w.text := by
  rintro ⟨rest, hrest⟩
  cases h with
  | inside place w =>
    have hhead := congrArg List.head? hrest
    simp [LocalPlace.head?_text] at hhead
  | definition name =>
    have hletter : some 't' = some 'f' := congrArg (·[11]?) hrest
    exact absurd hletter (by decide)
  | test name f =>
    have hletter : some 'u' = some 'e' := congrArg List.head? hrest
    exact absurd hletter (by decide)

namespace Design

/-- No verdict was passed on the design. -/
def Open (d : Design) : Prop := ∀ w ∈ d.warnings, w.Interim

/-- The verdict on the design is the last that was said about it. -/
def VerdictLast (threshold : Int) (d : Design) : Prop :=
  ∃ before, d.warnings = before ++ (d.shortcomings threshold).map .ofComplaint ∧
    ∀ w ∈ before, w.Interim

variable {d : Design} {threshold : Int}

theorem open_ofName (name : Text) : (ofName name).Open := by
  intro w hw
  cases hw

theorem Open.absorb (h : d.Open) (f : Form) : (d.absorb Definition.inspect f).Open := by
  intro w hw
  rcases List.mem_append.1 hw with hw | hw
  · exact h w hw
  · refine Review.forall_mem_memberWarnings ?_ (.test d.name f) ?_ w hw
    · intro e _
      exact .definition e.name
    · intro e _ v hv
      obtain ⟨forms, -, s, -, v, -, rfl⟩ := Definition.exists_within_of_mem_inspect hv
      exact .inside s.place v

theorem Open.judge (h : d.Open) : (d.judge threshold).VerdictLast threshold :=
  ⟨d.warnings, rfl, h⟩

/-- The verdict as one reads it. -/
theorem VerdictLast.exists_texts (h : d.VerdictLast threshold) :
    ∃ before, d.warnings.map Warning.text =
        before ++ (if d.purposeLines < 1 then [Complaint.noPurpose.text] else []) ++
          (if (d.tests : Int) < threshold then [(Complaint.fewTests d.tests).text] else []) ∧
      ∀ text ∈ before, text ≠ Complaint.noPurpose.text ∧
        ∀ tests, text ≠ (Complaint.fewTests tests).text := by
  obtain ⟨before, hwarnings, hbefore⟩ := h
  refine ⟨before.map Warning.text, ?_, ?_⟩
  · rw [hwarnings, shortcomings]
    split_ifs <;> simp
  · intro text htext
    obtain ⟨w, hw, rfl⟩ := List.mem_map.1 htext
    have hhead := (hbefore w hw).head?_text
    constructor
    · intro heq
      exact hhead.1 (heq ▸ rfl)
    · intro tests heq
      exact hhead.2 (heq ▸ rfl)

theorem not_prefix_of_mem_warnings (h : d.Open ∨ d.VerdictLast threshold) {w : Warning}
    (hw : w ∈ d.warnings) : ¬ "unexpected test: ".toList <+: w.text := by
  rcases h with hopen | ⟨before, hwarnings, hbefore⟩
  · exact (hopen w hw).not_prefix_text
  · rw [hwarnings] at hw
    rcases List.mem_append.1 hw with hw | hw
    · exact (hbefore w hw).not_prefix_text
    · obtain ⟨c, hc, rfl⟩ := List.mem_map.1 hw
      rintro ⟨rest, hrest⟩
      rcases mem_shortcomings_iff.1 hc with ⟨rfl, -⟩ | ⟨rfl, -⟩
      · have hletter : some 'u' = some 'n' := congrArg List.head? hrest
        exact absurd hletter (by decide)
      · have hletter : some 'u' = some 'o' := congrArg List.head? hrest
        exact absurd hletter (by decide)

end Design

namespace Review

/-- Nothing stands in front of the next signature. -/
def AtSignature (queue : List Form) : Prop :=
  ∀ f, queue.head? = some f → Signature.name? f ≠ none

theorem atSignature_nil : AtSignature [] := by
  intro f hf
  cases hf

namespace Moment

/-- The designs that nothing is to be changed about. -/
def settled (m : Moment) : List Design :=
  match m.stage with
  | .seeking => m.review.designs
  | .describing | .testing | .judging => m.review.designs.tail

/-- What is known of the moments of a review. Designs are left at signatures only, and between
signature and verdict there is an open design. -/
structure Orderly (threshold : Int) (m : Moment) : Prop where
  required : m.review.threshold = threshold
  seeking : m.stage = .seeking → m.review.designs ≠ [] → AtSignature m.review.queue
  judging : m.stage = .judging → AtSignature m.review.queue
  current : m.stage ≠ .seeking → ∃ d earlier, m.review.designs = d :: earlier ∧ d.Open
  designs : ∀ d ∈ m.review.designs, d.Open ∨ d.VerdictLast threshold

variable {threshold : Int} {m m' : Moment} {r : Review} {d : Design} {earlier : List Design}

/-- A moment between two designs. -/
theorem orderly_of_seeking (hthreshold : r.threshold = threshold)
    (hsignature : r.designs ≠ [] → AtSignature r.queue)
    (hdesigns : ∀ d ∈ r.designs, d.Open ∨ d.VerdictLast threshold) :
    Orderly threshold ⟨.seeking, r⟩ where
  required := hthreshold
  seeking := fun _ => hsignature
  judging := by simp
  current := by simp
  designs := hdesigns

theorem orderly_ofForms (forms : List Form) (threshold : Int) :
    Orderly threshold ⟨.seeking, ofForms forms threshold⟩ := by
  refine orderly_of_seeking rfl ?_ ?_
  · intro hnone
    exact absurd rfl hnone
  · intro d hd
    cases hd

/-- A moment inside a design, if a form or none was taken for it. -/
theorem orderly_of_current {stage : Stage} (hthreshold : r.threshold = threshold)
    (hstage : stage ≠ .seeking) (hjudging : stage = .judging → AtSignature r.queue)
    (hr : r.designs = d :: earlier) (hd : d.Open)
    (hearlier : ∀ e ∈ earlier, e.Open ∨ e.VerdictLast threshold) :
    Orderly threshold ⟨stage, r⟩ where
  required := hthreshold
  seeking := fun h => absurd h hstage
  judging := hjudging
  current := fun _ => ⟨d, earlier, hr, hd⟩
  designs := by
    rw [hr]
    exact List.forall_mem_cons.2 ⟨.inl hd, hearlier⟩

theorem Orderly.exists_open {stage : Stage} (hm : Orderly threshold ⟨stage, r⟩)
    (hstage : stage ≠ .seeking) :
    ∃ d earlier, r.designs = d :: earlier ∧ d.Open ∧
      ∀ e ∈ earlier, e.Open ∨ e.VerdictLast threshold := by
  obtain ⟨d, earlier, (hdesigns : r.designs = d :: earlier), hopen⟩ := hm.current hstage
  have hboth : ∀ e ∈ r.designs, e.Open ∨ e.VerdictLast threshold := hm.designs
  rw [hdesigns] at hboth
  exact ⟨d, earlier, hdesigns, hopen, (List.forall_mem_cons.1 hboth).2⟩

/-- A step of the review keeps its order and leaves settled designs alone. -/
theorem Orderly.next (hm : Orderly threshold m) (h : Next Definition.inspect m m') :
    Orderly threshold m' ∧ m.settled <:+ m'.settled := by
  cases h with
  | @stray r f rest hqueue hf =>
    -- With a design there would be a signature in front.
    have hnone : r.designs = [] := by
      by_contra hdesigns
      refine hm.seeking rfl hdesigns f ?_ hf
      rw [hqueue]
      rfl
    obtain ⟨trace, hnoted⟩ := noteStray_eq Definition.inspect (r := r.take f rest) hnone f
    rw [hnoted]
    refine ⟨orderly_of_seeking hm.required ?_ hm.designs, List.suffix_rfl⟩
    intro hdesigns
    exact absurd hnone hdesigns
  | @signature r f rest name hqueue hf =>
    have hopened : ((r.take f rest).openDesign name).designs = .ofName name :: r.designs := rfl
    by_cases hrest : rest = []
    · rw [hrest] at hqueue hopened ⊢
      refine ⟨orderly_of_seeking hm.required ?_ ?_, List.suffix_cons _ _⟩
      · intro _
        exact atSignature_nil
      · rw [hopened]
        exact List.forall_mem_cons.2 ⟨.inl (Design.open_ofName name), hm.designs⟩
    · rw [Stage.behindSignature_of_ne_nil hrest]
      refine ⟨orderly_of_current hm.required ?_ ?_ hopened (Design.open_ofName name) hm.designs,
        List.suffix_rfl⟩ <;> simp
  | @purpose r f rest hqueue hf =>
    obtain ⟨d, earlier, hdesigns, hopen, hearlier⟩ := hm.exists_open (by simp)
    rw [amend_of_current (r := r.withQueue rest) hdesigns]
    refine ⟨orderly_of_current hm.required ?_ ?_ rfl hopen hearlier, ?_⟩
    · simp
    · simp
    · simp [settled, hdesigns]
  | @described r hqueue =>
    obtain ⟨d, earlier, hdesigns, hopen, hearlier⟩ := hm.exists_open (by simp)
    refine ⟨orderly_of_current hm.required ?_ ?_ hdesigns hopen hearlier, List.suffix_rfl⟩ <;> simp
  | @member r f rest d earlier hdesigns hqueue hf =>
    obtain ⟨_, _, hcurrent, hopen, hearlier⟩ := hm.exists_open (by simp)
    obtain ⟨rfl, rfl⟩ := List.cons.inj (hdesigns.symm.trans hcurrent)
    obtain ⟨trace, hnoted⟩ := noteMember_eq Definition.inspect (r := r.take f rest) hdesigns f
    rw [hnoted]
    refine ⟨orderly_of_current hm.required ?_ ?_ rfl (hopen.absorb f) hearlier, ?_⟩
    · simp
    · simp
    · simp [settled, hdesigns]
  | @interrupted r f rest name hqueue hf =>
    obtain ⟨d, earlier, hdesigns, hopen, hearlier⟩ := hm.exists_open (by simp)
    refine ⟨orderly_of_current hm.required ?_ ?_ hdesigns hopen hearlier, List.suffix_rfl⟩
    · simp
    · intro _ g hg
      rw [show (r.report (Signature.trace f)).queue = f :: rest from hqueue] at hg
      cases hg
      rw [hf]
      exact Option.some_ne_none name
  | @exhausted r hqueue =>
    obtain ⟨d, earlier, hdesigns, hopen, hearlier⟩ := hm.exists_open (by simp)
    refine ⟨orderly_of_current hm.required ?_ ?_ hdesigns hopen hearlier, List.suffix_rfl⟩
    · simp
    · intro _
      rw [hqueue]
      exact atSignature_nil
  | verdict r =>
    obtain ⟨d, earlier, hdesigns, hopen, hearlier⟩ := hm.exists_open (by simp)
    have hready := hm.judging rfl
    have hthreshold : r.threshold = threshold := hm.required
    have hjudged : r.judge = { r with designs := d.judge threshold :: earlier } := by
      rw [judge, amend_of_current hdesigns, hthreshold]
    rw [hjudged]
    refine ⟨orderly_of_seeking hthreshold ?_ ?_, ?_⟩
    · intro _
      exact hready
    · exact List.forall_mem_cons.2 ⟨.inr hopen.judge, hearlier⟩
    · simp [settled, hdesigns]

/-- Settled designs stay as they are, and where they are, for all that is still to come. -/
theorem Orderly.leads (hm : Orderly threshold m) (h : Leads Definition.inspect m m') :
    Orderly threshold m' ∧ m.settled <:+ m'.settled := by
  induction h with
  | refl => exact ⟨hm, List.suffix_rfl⟩
  | tail _ hnext ih =>
    obtain ⟨horderly, hsettled⟩ := ih.1.next hnext
    exact ⟨horderly, ih.2.trans hsettled⟩

theorem settled_suffix (m : Moment) : m.settled <:+ m.review.designs := by
  unfold settled
  split
  · exact List.suffix_rfl
  all_goals exact List.tail_suffix _

end Moment

open Moment

/-- The moments of a review lead to its end. At each verdict the queue is at its end or at a
signature, and the design that was judged stays as it is for all that is still to come, with the
verdict as the last that is said about it. No design is ever blamed for an unexpected test. All this
holds of the `local` forms in a definition too, since they are reviewed in the same way. -/
theorem judged_design_is_settled (forms : List Form) (threshold : Int) :
    let start : Moment := ⟨.seeking, ofForms forms threshold⟩
    let done : Moment := ⟨.seeking, ofProgram forms threshold⟩
    (∀ m, Leads Definition.inspect start m →
      Leads Definition.inspect m done ∧
        ∀ d ∈ m.review.designs, ∀ w ∈ d.warnings, ¬ "unexpected test: ".toList <+: w.text) ∧
      (∀ m, ¬ Next Definition.inspect done m) ∧
      (∀ r m, Leads Definition.inspect start ⟨.judging, r⟩ →
        Next Definition.inspect ⟨.judging, r⟩ m →
          ∃ d earlier, r.designs = d :: earlier ∧
            m.review.designs = d.judge threshold :: earlier ∧
            (∀ f, m.review.queue.head? = some f → Signature.name? f ≠ none) ∧
            (∀ m', Leads Definition.inspect m m' →
              d.judge threshold :: earlier <:+ m'.review.designs) ∧
            ∃ before, (d.judge threshold).warnings.map Warning.text =
                before ++ (if d.purposeLines < 1 then [Complaint.noPurpose.text] else []) ++
                  (if (d.tests : Int) < threshold then [(Complaint.fewTests d.tests).text]
                    else []) ∧
              ∀ text ∈ before, text ≠ Complaint.noPurpose.text ∧
                ∀ tests, text ≠ (Complaint.fewTests tests).text) ∧
      ∀ d : Definition, d.inspect.warnings =
        d.localForms.flatMap fun inner => (ofProgram inner 0).localWarnings := by
  intro start done
  have hstart : Orderly threshold start := orderly_ofForms forms threshold
  have hdone : Leads Definition.inspect start done := leads_complete Definition.inspect _
  have hlast (m : Moment) : ¬ Next Definition.inspect done m :=
    not_next_of_queue_eq_nil (queue_complete Definition.inspect _) m
  refine ⟨?_, hlast, ?_, Definition.warnings_inspect⟩
  · intro m hm
    refine ⟨hm.of_last hlast hdone, ?_⟩
    intro d hd w hw
    exact Design.not_prefix_of_mem_warnings ((hstart.leads hm).1.designs d hd) hw
  · intro r m hr hm
    have horderly := (hstart.leads hr).1
    have hnext := (horderly.next hm).1
    obtain ⟨d, earlier, hdesigns, hopen⟩ := horderly.current (by simp)
    cases hm
    have hjudged : r.judge.designs = d.judge threshold :: earlier := by
      rw [judge, amend_of_current hdesigns, show r.threshold = threshold from horderly.required]
    refine ⟨d, earlier, hdesigns, hjudged, ?_, ?_, hopen.judge.exists_texts⟩
    · exact hnext.seeking rfl (by simp [hjudged])
    · intro m' hm'
      have hsettled := (hnext.leads hm').2
      rw [settled, hjudged] at hsettled
      exact hsettled.trans m'.settled_suffix

/-- A signature and a string: the verdict that no purpose was stated and no test was made stands
at the end of the review. -/
theorem judged_design_is_settled_of_string :
    ∃ r, Leads Definition.inspect
        ⟨.seeking,
          ofForms [.atom .lineComment ";f:A -> B".toList, .atom .string "\"\"".toList] 2⟩
        ⟨.judging, r⟩ ∧
      [⟨['f'], 0, 0, [.ofComplaint .noPurpose, .ofComplaint (.fewTests 0)]⟩] <:+
        (ofProgram
          [.atom .lineComment ";f:A -> B".toList, .atom .string "\"\"".toList] 2).designs := by
  have hsignature := Signature.name?_short
  generalize Form.atom .lineComment ";f:A -> B".toList = signature at hsignature ⊢
  generalize hstring : Form.atom .string "\"\"".toList = string
  have hunsigned : Signature.name? string = none := by rw [← hstring]; rfl
  have hpurpose : isPurpose string = false := by rw [← hstring]; rfl
  let opened := ((ofForms [signature, string] 2).take signature [string]).openDesign ['f']
  have hopened : Next Definition.inspect ⟨.seeking, ofForms [signature, string] 2⟩
      ⟨.behindSignature [string], opened⟩ := .signature rfl hsignature
  have hdescribed : Next Definition.inspect ⟨.describing, opened⟩ ⟨.testing, opened⟩ := by
    apply Next.described
    rintro f ⟨⟩
    exact hpurpose
  have hmember : Next Definition.inspect ⟨.testing, opened⟩
      ⟨.testing, (opened.take string []).noteMember Definition.inspect ['f'] string⟩ :=
    .member (d := .ofName ['f']) rfl rfl hunsigned
  have hnoted : (opened.take string []).noteMember Definition.inspect ['f'] string =
      opened.take string [] := by rw [← hstring]; rfl
  rw [hnoted] at hmember
  have hjudging := ((hopened.leads.trans hdescribed.leads).trans hmember.leads).trans
    (Next.exhausted rfl).leads
  have hverdict : Next Definition.inspect ⟨.judging, opened.take string []⟩ _ := .verdict _
  obtain ⟨hmoments, -, hverdicts, -⟩ := judged_design_is_settled [signature, string] 2
  obtain ⟨d, earlier, hdesigns, -, -, hlater, -⟩ := hverdicts _ _ hjudging hverdict
  obtain ⟨rfl, rfl⟩ := List.cons.inj hdesigns
  exact ⟨_, hjudging, hlater _ (hmoments _ (hjudging.trans hverdict.leads)).1⟩

end Review

end DesignRecipe
