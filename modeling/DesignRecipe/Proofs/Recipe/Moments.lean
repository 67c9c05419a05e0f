import DesignRecipe.Proofs.Recipe.Blockwise
import Mathlib.Logic.Relation

/-!
# Moments of a review

A review takes its forms one by one. Its moments follow one another form by form, each with the
queue that is left at it, and there is never a choice. They lead to the review that is complete, so
what a moment leads to is what is still to come in the review.
-/
namespace DesignRecipe

namespace Review

/-- The phase of its round in which a review is. -/
inductive Stage where
  | seeking
  | describing
  | testing
  | judging

/-- Behind a signature a design follows if any form is left for it. -/
def Stage.behindSignature : List Form → Stage
  | [] => .seeking
  | _ :: _ => .describing

theorem Stage.behindSignature_of_ne_nil {queue : List Form} (h : queue ≠ []) :
    behindSignature queue = .describing := by
  cases queue with
  | nil => exact absurd rfl h
  | cons => rfl

structure Moment where
  stage : Stage
  review : Review

def withQueue (queue : List Form) (r : Review) : Review := { r with queue }

/-- The review when it has had a look at the form in front and taken it. -/
def take (f : Form) (rest : List Form) (r : Review) : Review :=
  (r.withQueue rest).report (Signature.trace f)

namespace Moment

variable (inspect : Inspector)

/-- What comes next, form by form. -/
inductive Next : Moment → Moment → Prop
  | stray {r : Review} {f : Form} {rest : List Form} :
    r.queue = f :: rest → Signature.name? f = none →
      Next ⟨.seeking, r⟩ ⟨.seeking, (r.take f rest).noteStray inspect f⟩
  | signature {r : Review} {f : Form} {rest : List Form} {name : Text} :
    r.queue = f :: rest → Signature.name? f = some name →
      Next ⟨.seeking, r⟩ ⟨.behindSignature rest, (r.take f rest).openDesign name⟩
  | purpose {r : Review} {f : Form} {rest : List Form} :
    r.queue = f :: rest → isPurpose f = true →
      Next ⟨.describing, r⟩
        ⟨.describing, (r.withQueue rest).amend (.addPurposeLines (if f.isComment then 1 else 0))⟩
  | described {r : Review} :
    (∀ f, r.queue.head? = some f → isPurpose f = false) → Next ⟨.describing, r⟩ ⟨.testing, r⟩
  | member {r : Review} {f : Form} {rest : List Form} {d : Design} {earlier : List Design} :
    r.designs = d :: earlier → r.queue = f :: rest → Signature.name? f = none →
      Next ⟨.testing, r⟩ ⟨.testing, (r.take f rest).noteMember inspect d.name f⟩
  | interrupted {r : Review} {f : Form} {rest : List Form} {name : Text} :
    r.queue = f :: rest → Signature.name? f = some name →
      Next ⟨.testing, r⟩ ⟨.judging, r.report (Signature.trace f)⟩
  | exhausted {r : Review} : r.queue = [] → Next ⟨.testing, r⟩ ⟨.judging, r⟩
  | verdict (r : Review) : Next ⟨.judging, r⟩ ⟨.seeking, r.judge⟩

/-- What is still to come. -/
def Leads : Moment → Moment → Prop := Relation.ReflTransGen (Next inspect)

variable {inspect : Inspector} {m m' m'' : Moment}

theorem Leads.refl (m : Moment) : Leads inspect m m := Relation.ReflTransGen.refl

theorem Leads.trans (h : Leads inspect m m') (h' : Leads inspect m' m'') : Leads inspect m m'' :=
  Relation.ReflTransGen.trans h h'

theorem Next.leads (h : Next inspect m m') : Leads inspect m m' := Relation.ReflTransGen.single h

theorem Next.unique (h : Next inspect m m') (h' : Next inspect m m'') : m' = m'' := by
  cases h <;> cases h' <;> simp_all

/-- A moment that nothing comes after is reached from all that comes before. -/
theorem Leads.of_last (hlast : ∀ next, ¬ Next inspect m'' next) (h : Leads inspect m m')
    (h' : Leads inspect m m'') : Leads inspect m' m'' := by
  have hunique : Relator.RightUnique (Next inspect) := fun _ _ _ => Next.unique
  rcases Relation.ReflTransGen.total_of_right_unique hunique h h' with hle | hge
  · exact hle
  · rcases Relation.ReflTransGen.cases_head hge with heq | ⟨next, hnext, -⟩
    · rw [heq]
      exact .refl _
    · exact absurd hnext (hlast next)

/-- Nothing comes after a review whose queue is empty. -/
theorem not_next_of_queue_eq_nil {r : Review} (hr : r.queue = []) (m : Moment) :
    ¬ Next inspect ⟨.seeking, r⟩ m := by
  intro h
  cases h <;> simp_all

end Moment

/-! ### The queue is left alone where forms are noted -/

section queue

variable {r : Review} {inspect : Inspector} (queue : List Form)

@[simp] theorem withQueue_withQueue (queue' : List Form) :
    (r.withQueue queue).withQueue queue' = r.withQueue queue' := rfl

@[simp] theorem withQueue_queue : r.withQueue r.queue = r := rfl

@[simp] theorem queue_withQueue : (r.withQueue queue).queue = queue := rfl

@[simp] theorem designs_withQueue : (r.withQueue queue).designs = r.designs := rfl

theorem withQueue_amend (change : Design → Design) :
    (r.amend change).withQueue queue = (r.withQueue queue).amend change := by
  obtain ⟨_, _, _, designs, _, _⟩ := r
  cases designs <;> rfl

theorem withQueue_warn (ws : List Warning) :
    (r.warn ws).withQueue queue = (r.withQueue queue).warn ws := by
  obtain ⟨_, _, _, designs, _, _⟩ := r
  cases designs <;> rfl

theorem withQueue_report (t : Trace) :
    (r.report t).withQueue queue = (r.withQueue queue).report t := rfl

theorem withQueue_noteDefinition (owner : Option Text) (d : Definition) :
    (r.noteDefinition inspect owner d).withQueue queue =
      (r.withQueue queue).noteDefinition inspect owner d := by
  unfold noteDefinition
  split_ifs <;> try rfl
  all_goals simp only [complain, withQueue_amend, withQueue_warn, withQueue_report]

theorem withQueue_noteStray (f : Form) :
    (r.noteStray inspect f).withQueue queue = (r.withQueue queue).noteStray inspect f := by
  unfold noteStray
  cases Definition.ofForm? f with
  | some d => exact withQueue_noteDefinition queue none d
  | none =>
    dsimp only
    split_ifs
    · exact withQueue_warn queue _
    · rfl

theorem withQueue_noteMember (name : Text) (f : Form) :
    (r.noteMember inspect name f).withQueue queue =
      (r.withQueue queue).noteMember inspect name f := by
  unfold noteMember
  cases Definition.ofForm? f with
  | some d => exact withQueue_noteDefinition queue (some name) d
  | none =>
    cases f.tested? with
    | none => rfl
    | some actual =>
      dsimp only
      split_ifs
      · exact withQueue_amend queue _
      · rw [complain, complain, withQueue_warn, withQueue_amend]

end queue

/-! ### The phases moment by moment -/

section phases

variable (inspect : Inspector) {r : Review}

theorem leads_seekSignatureIn (forms : List Form) :
    Moment.Leads inspect ⟨.seeking, r.withQueue forms⟩
      ⟨.behindSignature (r.seekSignatureIn inspect forms).queue,
        r.seekSignatureIn inspect forms⟩ := by
  induction forms generalizing r with
  | nil => exact .refl _
  | cons f rest ih =>
    rw [seekSignatureIn]
    cases hf : Signature.name? f with
    | some name => exact (Moment.Next.signature (r := r.withQueue (f :: rest)) rfl hf).leads
    | none =>
      have hstep : Moment.Next inspect ⟨.seeking, r.withQueue (f :: rest)⟩ _ := .stray rfl hf
      have hrest := ih (r := (r.report (Signature.trace f)).noteStray inspect f)
      rw [withQueue_noteStray] at hrest
      exact hstep.leads.trans hrest

theorem leads_seekSignature (r : Review) :
    Moment.Leads inspect ⟨.seeking, r⟩
      ⟨.behindSignature (r.seekSignature inspect).queue, r.seekSignature inspect⟩ :=
  leads_seekSignatureIn inspect r.queue

theorem amend_amend (change change' : Design → Design) :
    (r.amend change).amend change' = r.amend (change' ∘ change) := by
  obtain ⟨_, _, _, designs, _, _⟩ := r
  cases designs <;> rfl

theorem readPurpose_eq (r : Review) :
    r.readPurpose =
      (r.amend (.addPurposeLines ((r.queue.takeWhile isPurpose).countP Form.isComment))).withQueue
        (r.queue.dropWhile isPurpose) := rfl

theorem readPurpose_of_head {f : Form} {rest : List Form} (hqueue : r.queue = f :: rest)
    (hf : isPurpose f = false) : r.readPurpose = r := by
  obtain ⟨_, _, _, designs, _, _⟩ := r
  cases hqueue
  cases designs <;> simp [readPurpose, hf, amend, Design.addPurposeLines]

theorem addPurposeLines_comp (n k : ℕ) :
    Design.addPurposeLines n ∘ Design.addPurposeLines k = Design.addPurposeLines (n + k) := by
  funext d
  simp [Design.addPurposeLines, Nat.add_assoc, Nat.add_comm k n]

/-- Purpose lines are counted one by one. -/
theorem readPurpose_of_purpose {f : Form} {rest : List Form} (hqueue : r.queue = f :: rest)
    (hf : isPurpose f = true) :
    r.readPurpose =
      ((r.withQueue rest).amend (.addPurposeLines (if f.isComment then 1 else 0))).readPurpose := by
  rw [readPurpose_eq, readPurpose_eq, queue_amend, amend_amend, addPurposeLines_comp, hqueue,
    queue_withQueue, List.takeWhile_cons_of_pos hf, List.dropWhile_cons_of_pos hf, List.countP_cons,
    withQueue_amend, withQueue_amend, withQueue_withQueue]

theorem leads_readPurpose (r : Review) :
    Moment.Leads inspect ⟨.describing, r⟩ ⟨.testing, r.readPurpose⟩ := by
  induction hqueue : r.queue generalizing r with
  | nil =>
    have hsame : r.readPurpose = r := by
      obtain ⟨_, _, _, designs, _, _⟩ := r
      cases hqueue
      cases designs <;> rfl
    rw [hsame]
    exact (Moment.Next.described (by simp [hqueue])).leads
  | cons f rest ih =>
    cases hf : isPurpose f with
    | true =>
      rw [readPurpose_of_purpose hqueue hf]
      exact (Moment.Next.purpose hqueue hf).leads.trans (ih _ (queue_amend _))
    | false =>
      rw [readPurpose_of_head hqueue hf]
      apply Moment.Next.leads
      apply Moment.Next.described
      intro g hg
      rw [hqueue] at hg
      cases hg
      exact hf

/-- The current design keeps its name, so it may be asked anew at each form. -/
theorem leads_readTestsIn {d : Design} {earlier : List Design} (hr : r.designs = d :: earlier)
    (forms : List Form) :
    Moment.Leads inspect ⟨.testing, r.withQueue forms⟩
      ⟨.judging, r.readTestsIn inspect d.name forms⟩ := by
  induction forms generalizing r d with
  | nil => exact (Moment.Next.exhausted rfl).leads
  | cons f rest ih =>
    rw [readTestsIn]
    cases hf : Signature.name? f with
    | some name =>
      exact (Moment.Next.interrupted (r := r.withQueue (f :: rest)) rfl hf).leads
    | none =>
      have hstep : Moment.Next inspect ⟨.testing, r.withQueue (f :: rest)⟩ _ := .member hr rfl hf
      obtain ⟨trace, hnoted⟩ := noteMember_eq inspect (r := r.report (Signature.trace f)) hr f
      have hdesigns : ((r.report (Signature.trace f)).noteMember inspect d.name f).designs =
          d.absorb inspect f :: earlier := by rw [hnoted]
      have hrest := ih hdesigns
      rw [withQueue_noteMember] at hrest
      exact hstep.leads.trans hrest

/-- What the search for a signature leaves in the queue is left to a design. -/
theorem exists_designs_of_seekSignatureIn (forms : List Form)
    (h : (r.seekSignatureIn inspect forms).queue ≠ []) :
    ∃ d earlier, (r.seekSignatureIn inspect forms).designs = d :: earlier := by
  induction forms generalizing r with
  | nil => exact absurd rfl h
  | cons f rest ih =>
    rw [seekSignatureIn] at h ⊢
    cases hf : Signature.name? f with
    | some name => exact ⟨_, _, rfl⟩
    | none =>
      rw [hf] at h
      exact ih h

theorem leads_finishDesign {d : Design} {earlier : List Design} (hr : r.designs = d :: earlier) :
    Moment.Leads inspect ⟨.describing, r⟩ ⟨.seeking, r.finishDesign inspect⟩ := by
  obtain ⟨e, hdesigns⟩ : ∃ e, r.readPurpose.designs = e :: earlier := by
    rw [readPurpose, amend_of_current hr]
    exact ⟨_, rfl⟩
  have htests : Moment.Leads inspect ⟨.testing, r.readPurpose⟩
      ⟨.judging, r.readPurpose.readTests inspect⟩ := by
    have hstretch := leads_readTestsIn inspect hdesigns r.readPurpose.queue
    rw [withQueue_queue] at hstretch
    rw [readTests, hdesigns]
    exact hstretch
  exact ((leads_readPurpose inspect r).trans htests).trans (Moment.Next.verdict _).leads

/-- The moments of a review lead to the complete review. -/
theorem leads_complete (r : Review) :
    Moment.Leads inspect ⟨.seeking, r⟩ ⟨.seeking, r.complete inspect⟩ := by
  fun_induction complete inspect r with
  | case1 r hnil => exact .refl _
  | case2 r hne opened hopened =>
    have hseek := leads_seekSignature inspect r
    rw [hopened] at hseek
    exact hseek
  | case3 r hne opened hopened _ ih =>
    have hseek := leads_seekSignature inspect r
    rw [Stage.behindSignature_of_ne_nil hopened] at hseek
    obtain ⟨d, earlier, hdesigns⟩ := exists_designs_of_seekSignatureIn inspect r.queue hopened
    exact (hseek.trans (leads_finishDesign inspect hdesigns)).trans ih

theorem queue_complete (r : Review) : (r.complete inspect).queue = [] := by
  fun_induction complete inspect r with
  | case1 r hnil => exact hnil
  | case2 r hne opened hopened => exact hopened
  | case3 r hne opened hopened _ ih => exact ih

end phases

end Review

end DesignRecipe
