import DesignRecipe.Proofs.Recipe.Phases
import DesignRecipe.Proofs.Recipe.Signature

/-!
# Phases in any order

On the ledger of a review the phases do what the steps of the review do, and so does the
inspection of `local` forms. So two things are known of reviews: in whatever order the steps are
taken, each of them adds to the last section only, and a complete review is never refused.
-/
namespace DesignRecipe

namespace Review

variable {r : Review} {queue : List Form}

/-- The ledger of a review, with a queue of its own. -/
def ledgerWith (queue : List Form) (r : Review) : Ledger :=
  match r.designs with
  | [] => ⟨queue, r.threshold, [], .opening r.opening, r.templates⟩
  | d :: earlier =>
    ⟨queue, r.threshold, .opening r.opening :: earlier.reverse.map .design, .design d, r.templates⟩

def ledger (r : Review) : Ledger := r.ledgerWith r.queue

theorem ledger_ofForms (forms : List Form) (threshold : Int) :
    (ofForms forms threshold).ledger = .ofForms forms threshold := rfl

@[simp] theorem queue_ledger : r.ledger.queue = r.queue := by
  unfold ledger ledgerWith
  split <;> rfl

@[simp] theorem threshold_ledger : r.ledger.threshold = r.threshold := by
  unfold ledger ledgerWith
  split <;> rfl

@[simp] theorem sections_ledger : r.ledger.sections = r.sections := by
  unfold ledger ledgerWith sections
  split <;> simp [Ledger.sections, *]

theorem groups_ledger : r.ledger.groups = r.groups := by
  rw [Ledger.groups, sections_ledger, groups]

@[simp] theorem withQueue_ledgerWith (queue' : List Form) :
    (r.ledgerWith queue).withQueue queue' = r.ledgerWith queue' := by
  unfold ledgerWith
  split <;> rfl

@[simp] theorem warn_ledgerWith (ws : List Warning) :
    (r.ledgerWith queue).warn ws = (r.warn ws).ledgerWith queue := by
  unfold ledgerWith warn
  cases r.designs <;> rfl

@[simp] theorem amend_ledgerWith (change : Design → Design) :
    (r.ledgerWith queue).amend change = (r.amend change).ledgerWith queue := by
  unfold ledgerWith amend
  cases hr : r.designs <;> simp [hr, Ledger.amend, Section.amend]

@[simp] theorem openDesign_ledgerWith (name : Text) :
    (r.ledgerWith queue).openDesign name = (r.openDesign name).ledgerWith queue := by
  unfold ledgerWith openDesign
  cases hr : r.designs <;> simp [Ledger.openDesign]

@[simp] theorem remember_ledgerWith (d : Definition) :
    (r.ledgerWith queue).remember d =
      { r with templates := r.templates ++ [d] }.ledgerWith queue := by
  unfold ledgerWith
  cases hr : r.designs <;> simp [Ledger.remember]

@[simp] theorem ledgerWith_report (t : Trace) :
    (r.report t).ledgerWith queue = r.ledgerWith queue := rfl

@[simp] theorem amend_id : r.amend id = r := by
  unfold amend
  split
  · rfl
  · next d earlier hr => rw [id, ← hr]

@[simp] theorem warn_nil : r.warn [] = r := by
  obtain ⟨queue, threshold, opening, designs, templates, trace⟩ := r
  cases designs <;> simp [warn, Design.warn]

end Review

namespace Phase

open Review

variable {ask : Inquiry} {inspect : Inspector} {r : Review} {queue : List Form}

theorem run_noteDefinition_ledgerWith {d : Definition} (h : ask d = .ok (inspect d).warnings)
    (owner : Option Text) :
    (noteDefinition ask owner d).run (r.ledgerWith queue) =
      .ok () ((r.noteDefinition inspect owner d).ledgerWith queue) := by
  unfold noteDefinition Review.noteDefinition
  by_cases htemplate : d.isTemplate = true
  · simp [htemplate]
  · rw [if_neg htemplate, if_neg htemplate, run_modify_bind, run_modify_bind,
      run_bind_of_ok (run_inside h _)]
    generalize (owner.isSome && d.isInteractive) = program
    cases program <;> by_cases howner : owner = some d.name <;>
      simp [howner, complain]

/-- What is asked about the inside of definitions is answered, and as in a review. -/
def Answers (ask : Inquiry) (inspect : Inspector) : Prop := ∀ d, ask d = .ok (inspect d).warnings

theorem Answers.answered (h : Answers ask inspect) : Answered ask := fun d => ⟨_, h d⟩

theorem run_noteStray_ledgerWith (h : Answers ask inspect) (f : Form) :
    (noteStray ask f).run (r.ledgerWith queue) =
      .ok () ((r.noteStray inspect f).ledgerWith queue) := by
  unfold noteStray Review.noteStray
  cases Definition.ofForm? f with
  | some d => exact run_noteDefinition_ledgerWith (h d) none
  | none => by_cases htest : f.isTest = true <;> simp [htest, complain]

theorem run_noteMember_ledgerWith (h : Answers ask inspect) (name : Text) (f : Form) :
    (noteMember ask name f).run (r.ledgerWith queue) =
      .ok () ((r.noteMember inspect name f).ledgerWith queue) := by
  unfold noteMember Review.noteMember
  cases Definition.ofForm? f with
  | some d => exact run_noteDefinition_ledgerWith (h d) (some name)
  | none =>
    cases f.tested? with
    | none => rfl
    | some actual =>
      by_cases hcalls : actual.callsFunction name = true <;> simp [hcalls, complain]

theorem run_seekSignatureIn_ledgerWith (h : Answers ask inspect) (forms : List Form) :
    (seekSignatureIn ask forms).run (r.ledgerWith forms) =
      .ok () (r.seekSignatureIn inspect forms).ledger := by
  induction forms generalizing r with
  | nil => rfl
  | cons f rest ih =>
    rw [seekSignatureIn, Review.seekSignatureIn, run_modify_bind, withQueue_ledgerWith]
    cases hf : Signature.name? f with
    | some name =>
      rw [run_modify, openDesign_ledgerWith]
      rfl
    | none =>
      rw [← ledgerWith_report (Signature.trace f), run_bind_of_ok (run_noteStray_ledgerWith h f)]
      exact ih

theorem run_readTestsIn_ledgerWith (h : Answers ask inspect) (name : Text) (forms : List Form) :
    (readTestsIn ask name forms).run (r.ledgerWith forms) =
      .ok () (r.readTestsIn inspect name forms).ledger := by
  induction forms generalizing r with
  | nil => rfl
  | cons f rest ih =>
    rw [readTestsIn, Review.readTestsIn]
    split_ifs with hf
    · rfl
    · rw [run_modify_bind, withQueue_ledgerWith, ← ledgerWith_report (Signature.trace f),
        run_bind_of_ok (run_noteMember_ledgerWith h name f)]
      exact ih

theorem run_seekSignature_ledger (h : Answers ask inspect) (r : Review) :
    (seekSignature ask).run r.ledger = .ok () (r.seekSignature inspect).ledger := by
  rw [seekSignature, run_get_bind, queue_ledger]
  exact run_seekSignatureIn_ledgerWith h r.queue

/-! ### The phases inside a design -/

theorem exists_designs_of_inDesign (h : r.ledger.InDesign) :
    ∃ d earlier, r.designs = d :: earlier ∧ r.ledger.current = .design d := by
  obtain ⟨d, hd⟩ := h
  unfold ledger ledgerWith at hd
  cases hr : r.designs with
  | nil =>
    rw [hr] at hd
    cases hd
  | cons e earlier =>
    rw [hr] at hd
    cases hd
    refine ⟨d, earlier, rfl, ?_⟩
    unfold ledger ledgerWith
    rw [hr]

theorem run_readPurpose_ledger (h : r.ledger.InDesign) :
    readPurpose.run r.ledger = .ok () r.readPurpose.ledger := by
  obtain ⟨d, earlier, -, hd⟩ := exists_designs_of_inDesign h
  rw [readPurpose, run_bind_of_ok (run_design hd), run_get_bind, queue_ledger, run_modify_bind,
    run_modify, ledger, amend_ledgerWith, withQueue_ledgerWith]
  rfl

/-- A design remains open. -/
theorem inDesign_readPurpose (h : r.ledger.InDesign) : r.readPurpose.ledger.InDesign := by
  obtain ⟨l', hl', hcontinues⟩ := exists_run_readPurpose h
  obtain ⟨-, rfl⟩ := EStateM.Result.ok.inj (hl'.symm.trans (run_readPurpose_ledger h))
  exact hcontinues.inDesign h

theorem run_readTests_ledger (h : Answers ask inspect) (hr : r.ledger.InDesign) :
    (readTests ask).run r.ledger = .ok () (r.readTests inspect).ledger := by
  obtain ⟨d, earlier, hdesigns, hd⟩ := exists_designs_of_inDesign hr
  rw [readTests, run_bind_of_ok (run_design hd), run_get_bind, queue_ledger, Review.readTests,
    hdesigns]
  exact run_readTestsIn_ledgerWith h d.name r.queue

theorem inDesign_readTests (h : Answers ask inspect) (hr : r.ledger.InDesign) :
    (r.readTests inspect).ledger.InDesign := by
  obtain ⟨l', hl', hcontinues⟩ := exists_run_readTests h.answered hr
  obtain ⟨-, rfl⟩ := EStateM.Result.ok.inj (hl'.symm.trans (run_readTests_ledger h hr))
  exact hcontinues.inDesign hr

theorem run_judge_ledger (h : r.ledger.InDesign) : judge.run r.ledger = .ok () r.judge.ledger := by
  obtain ⟨d, earlier, -, hd⟩ := exists_designs_of_inDesign h
  rw [judge, run_bind_of_ok (run_design hd), run_modify, threshold_ledger, ledger,
    amend_ledgerWith, ← Review.judge, ledger, queue_judge]

/-- What the search for a signature leaves in the queue belongs to a design. -/
theorem inDesign_seekSignature (h : Answers ask inspect)
    (hr : (r.seekSignature inspect).queue ≠ []) : (r.seekSignature inspect).ledger.InDesign := by
  obtain ⟨l', hl', -, -, hdesign⟩ := exists_run_seekSignature h.answered r.ledger
  obtain ⟨-, rfl⟩ := EStateM.Result.ok.inj (hl'.symm.trans (run_seekSignature_ledger h r))
  rw [queue_ledger] at hdesign
  exact hdesign hr

theorem run_finishDesign_ledger (h : Answers ask inspect) (hr : r.ledger.InDesign) :
    (finishDesign ask).run r.ledger = .ok () (r.finishDesign inspect).ledger := by
  have hpurpose := inDesign_readPurpose hr
  rw [finishDesign, run_bind_of_ok (run_readPurpose_ledger hr),
    run_bind_of_ok (run_readTests_ledger h hpurpose),
    run_judge_ledger (inDesign_readTests h hpurpose)]
  rfl

theorem run_rounds_ledger (h : Answers ask inspect) {n : ℕ} (hn : r.queue.length ≤ n) :
    (rounds ask n).run r.ledger = .ok () (r.complete inspect).ledger := by
  induction n generalizing r with
  | zero =>
    have hempty : r.queue = [] := List.length_eq_zero_iff.1 (Nat.le_zero.1 hn)
    rw [complete_of_nil inspect hempty]
    rfl
  | succ n ih =>
    rw [rounds, run_get_bind, queue_ledger]
    by_cases hempty : r.queue = []
    · rw [if_pos hempty, complete_of_nil inspect hempty]
      rfl
    · have hshorter := length_queue_seekSignature_lt inspect hempty
      have hseek := run_seekSignature_ledger h r
      rw [if_neg hempty, complete_of_ne_nil inspect hempty]
      split_ifs with hopened
      · have hround : (round ask).run r.ledger = .ok () (r.seekSignature inspect).ledger := by
          rw [round, run_bind_of_ok hseek, run_get_bind, queue_ledger, if_pos hopened]
          rfl
        rw [run_bind_of_ok hround, ih (by omega), complete_of_nil inspect hopened]
      · have hround : (round ask).run r.ledger =
            .ok () ((r.seekSignature inspect).finishDesign inspect).ledger := by
          rw [round, run_bind_of_ok hseek, run_get_bind, queue_ledger, if_neg hopened]
          exact run_finishDesign_ledger h (inDesign_seekSignature h hopened)
        have hfinish := queue_finishDesign_lt inspect hempty
        rw [run_bind_of_ok hround]
        exact ih (by omega)

theorem run_complete_ledger (h : Answers ask inspect) (r : Review) :
    (complete ask).run r.ledger = .ok () (r.complete inspect).ledger := by
  rw [complete, run_get_bind, queue_ledger]
  exact run_rounds_ledger h le_rfl

/-! ### Local forms -/

theorem localWarnings_eq_ok (h : Answers ask inspect) (forms : List Form) :
    localWarnings ask forms = .ok ((ofForms forms 0).complete inspect).localWarnings := by
  rw [localWarnings, ← ledger_ofForms, run_complete_ledger h]
  simp only [Ledger.localWarnings, sections_ledger]
  rfl

theorem answers_inspectWith (h : Answers ask inspect) :
    Answers (inspectWith ask) (Definition.inspectWith inspect) := by
  intro d
  have hlocal : localWarnings ask =
      fun forms => pure ((ofForms forms 0).complete inspect).localWarnings :=
    funext (localWarnings_eq_ok h)
  rw [inspectWith, hlocal, List.mapM_pure, Definition.warnings_inspectWith]
  rfl

/-- No fault turns up in `local` forms, on any level of nesting. -/
theorem answers_inspectTo (level : ℕ) : Answers (inspectTo level) (Definition.inspectTo level) := by
  induction level with
  | zero => exact fun _ => rfl
  | succ level ih => exact answers_inspectWith ih

theorem answers_inspect : Answers Phase.inspect Definition.inspect :=
  fun d => answers_inspectTo d.body.depth d

/-- Inspection of a definition inspects the definitions in its `local` forms. -/
theorem inspect_eq_inspectWith (d : Definition) :
    Phase.inspect d = inspectWith Phase.inspect d := by
  rw [answers_inspect d, answers_inspectWith answers_inspect d, Definition.inspect_eq]

end Phase

/-! ### Steps in any order -/

namespace Review

/-- The step works on the current design. -/
def Step.NeedsDesign : Step → Prop
  | .readPurpose | .readTests | .judge => True
  | .seekSignature | .complete | .enqueue _ => False

/-- The review after a step. A step that is refused leaves it as it is. -/
def attempt (r : Review) (s : Step) : Review :=
  match r.perform s with
  | .ok r' => r'
  | .error _ => r

variable {r : Review}

theorem inDesign_ledger_iff : r.ledger.InDesign ↔ r.designs ≠ [] := by
  constructor
  · intro h
    obtain ⟨d, earlier, hdesigns, -⟩ := Phase.exists_designs_of_inDesign h
    simp [hdesigns]
  · intro h
    obtain ⟨d, earlier, hdesigns⟩ := List.exists_cons_of_ne_nil h
    refine ⟨d, ?_⟩
    unfold ledger ledgerWith
    rw [hdesigns]

theorem length_sections_eq_one_iff : r.sections.length = 1 ↔ r.designs = [] := by
  simp [sections]

/-- A step inside a design is refused if there is none. -/
theorem perform_of_no_design {s : Step} (hs : s.NeedsDesign) (hr : r.designs = []) :
    r.perform s = .error .noDesign := by
  cases s with
  | readPurpose | readTests | judge =>
    unfold perform current
    rw [hr]
    rfl
  | seekSignature | complete | enqueue => exact hs.elim

end Review

namespace Phase

open Review

/-- What the phase behind a step may leave of a ledger when it comes to its end. -/
theorem exists_run_perform {l : Ledger} {s : Step} (h : s.NeedsDesign → l.InDesign) :
    ∃ l', (perform s).run l = .ok () l' ∧
      ((∃ forms, s = .enqueue forms ∧ l' = l.withQueue (l.queue ++ forms)) ∨ l.Grows l') := by
  have hanswered := answers_inspect.answered
  cases s with
  | seekSignature =>
    obtain ⟨l', hl', hgrows, -⟩ := exists_run_seekSignature hanswered l
    exact ⟨l', hl', .inr hgrows⟩
  | readPurpose =>
    obtain ⟨l', hl', hcontinues⟩ := exists_run_readPurpose (h trivial)
    exact ⟨l', hl', .inr hcontinues.grows⟩
  | readTests =>
    obtain ⟨l', hl', hcontinues⟩ := exists_run_readTests hanswered (h trivial)
    exact ⟨l', hl', .inr hcontinues.grows⟩
  | judge =>
    obtain ⟨l', hl', hcontinues⟩ := exists_run_judge (h trivial)
    exact ⟨l', hl', .inr hcontinues.grows⟩
  | complete =>
    obtain ⟨l', hl', hgrows, -⟩ := exists_run_complete hanswered l
    exact ⟨l', hl', .inr hgrows⟩
  | enqueue forms => exact ⟨_, rfl, .inl ⟨forms, rfl, rfl⟩⟩

/-- Without a current design the phases inside a design do nothing. -/
theorem run_perform_of_not_inDesign {l : Ledger} {s : Step} (hs : s.NeedsDesign)
    (hl : ¬l.InDesign) : (perform s).run l = .error .noDesign l := by
  obtain ⟨ws, hws⟩ : ∃ ws, l.current = .opening ws := by
    cases hcurrent : l.current with
    | opening ws => exact ⟨ws, rfl⟩
    | design d => exact absurd ⟨d, hcurrent⟩ hl
  have hdesign := run_design_of_opening hws
  cases s with
  | readPurpose | readTests | judge => exact run_bind_of_error hdesign _
  | seekSignature | complete | enqueue => exact hs.elim

/-- On the ledger of a review a phase does what the step of the review does. A step that is refused
leaves the ledger as it is. -/
theorem run_perform_ledger (r : Review) (s : Step) :
    (perform s).run r.ledger =
      match r.perform s with
      | .ok r' => .ok () r'.ledger
      | .error fault => .error fault r.ledger := by
  by_cases hs : s.NeedsDesign ∧ r.designs = []
  · obtain ⟨hneeds, hr⟩ := hs
    have hout : ¬r.ledger.InDesign := by simp [inDesign_ledger_iff, hr]
    rw [run_perform_of_not_inDesign hneeds hout, perform_of_no_design hneeds hr]
  · rw [not_and] at hs
    have hok (next : Review) (hr : r.designs ≠ []) :
        (r.current.map fun _ => next) = .ok next := by
      obtain ⟨d, earlier, hdesigns⟩ := List.exists_cons_of_ne_nil hr
      rw [current, hdesigns]
      rfl
    cases s with
    | seekSignature => exact run_seekSignature_ledger answers_inspect r
    | complete => exact run_complete_ledger answers_inspect r
    | enqueue forms =>
      rw [perform, run_modify, queue_ledger, ledger, withQueue_ledgerWith]
      rfl
    | readPurpose =>
      have hr := hs trivial
      rw [Review.perform, hok _ hr]
      exact run_readPurpose_ledger (inDesign_ledger_iff.2 hr)
    | readTests =>
      have hr := hs trivial
      rw [Review.perform, hok _ hr]
      exact run_readTests_ledger answers_inspect (inDesign_ledger_iff.2 hr)
    | judge =>
      have hr := hs trivial
      rw [Review.perform, hok _ hr]
      exact run_judge_ledger (inDesign_ledger_iff.2 hr)

end Phase

namespace Ledger

open Review Phase

/-- The ledger that the phase behind a step leaves, whether a fault ends it or not. -/
def attempt (l : Ledger) (s : Step) : Ledger :=
  match (perform s).run l with
  | .ok _ l' => l'
  | .error _ l' => l'

variable {l : Ledger} {s : Step}

theorem grows_attempt (l : Ledger) (hs : ∀ forms, s ≠ .enqueue forms) : l.Grows (l.attempt s) := by
  by_cases h : s.NeedsDesign → l.InDesign
  · obtain ⟨l', hrun, ⟨forms, rfl, -⟩ | hgrows⟩ := exists_run_perform h
    · exact absurd rfl (hs forms)
    · rwa [attempt, hrun]
  · obtain ⟨hneeds, hout⟩ := Classical.not_imp.1 h
    rw [attempt, run_perform_of_not_inDesign hneeds hout]
    exact .refl l

theorem refused_iff :
    (∃ fault l', (perform s).run l = .error fault l') ↔ s.NeedsDesign ∧ ¬l.InDesign := by
  constructor
  · rintro ⟨fault, l', herror⟩
    by_contra h
    obtain ⟨m, hrun, -⟩ := exists_run_perform (not_and_not_right.1 h)
    rw [herror] at hrun
    cases hrun
  · rintro ⟨hneeds, hout⟩
    exact ⟨_, _, run_perform_of_not_inDesign hneeds hout⟩

theorem eq_of_refused {fault : Fault} {l' : Ledger} (h : (perform s).run l = .error fault l') :
    fault = .noDesign ∧ l' = l := by
  obtain ⟨hneeds, hout⟩ := refused_iff.1 ⟨fault, l', h⟩
  rw [run_perform_of_not_inDesign hneeds hout] at h
  cases h
  exact ⟨rfl, rfl⟩

theorem attempt_ledger (r : Review) (s : Step) : r.ledger.attempt s = (r.attempt s).ledger := by
  rw [attempt, run_perform_ledger, Review.attempt]
  cases r.perform s <;> rfl

theorem foldl_attempt_ledger (r : Review) (steps : List Step) :
    steps.foldl attempt r.ledger = (steps.foldl Review.attempt r).ledger := by
  induction steps generalizing r with
  | nil => rfl
  | cons s steps ih => rw [List.foldl_cons, List.foldl_cons, attempt_ledger, ih]

/-- Whatever steps are taken, the opening stays in front and designs stand behind it. A step works
on the last section alone and takes nothing back there. It is refused if it needs a design and
there is none, and then nothing has happened. -/
theorem steps_extend_last_section (r : Review) (before : List Step) (s : Step) :
    let l := before.foldl attempt r.ledger
    l = (before.foldl Review.attempt r).ledger ∧
      (∃ warnings designs, l.sections = .opening warnings :: List.map .design designs) ∧
      (∀ forms, s = .enqueue forms → l.attempt s = { l with queue := l.queue ++ forms }) ∧
      ((∀ forms, s ≠ .enqueue forms) → l.Grows (l.attempt s)) ∧
      ((∃ fault l', (perform s).run l = .error fault l') ↔
        s.NeedsDesign ∧ l.sections.length = 1) ∧
      ∀ fault l', (perform s).run l = .error fault l' → fault = .noDesign ∧ l' = l := by
  rw [foldl_attempt_ledger]
  generalize before.foldl Review.attempt r = q
  refine ⟨rfl, ⟨q.opening, q.designs.reverse, sections_ledger⟩, ?_, q.ledger.grows_attempt, ?_, ?_⟩
  · rintro forms rfl
    rfl
  · rw [refused_iff, sections_ledger, length_sections_eq_one_iff, inDesign_ledger_iff, not_not]
  · intro fault l' h
    exact eq_of_refused h

/-- A verdict is refused in front of the first signature, and passed behind it. -/
theorem steps_extend_last_section_of_judge :
    (∃ fault l', (perform .judge).run (ofForms [] 2) = .error fault l') ∧
      Grows
        ([.enqueue [.atom .lineComment ";f:A -> B".toList], .seekSignature].foldl attempt
          (ofForms [] 2))
        (([.enqueue [.atom .lineComment ";f:A -> B".toList], .seekSignature].foldl attempt
          (ofForms [] 2)).attempt .judge) ∧
      (([.enqueue [.atom .lineComment ";f:A -> B".toList], .seekSignature].foldl attempt
        (ofForms [] 2)).attempt .judge).sections =
          [.opening [],
            .design ⟨['f'], 0, 0, [.ofComplaint .noPurpose, .ofComplaint (.fewTests 0)]⟩] := by
  have hsignature := Signature.name?_short
  generalize Form.atom .lineComment ";f:A -> B".toList = signature at hsignature ⊢
  obtain ⟨-, -, -, -, hrefused, -⟩ := steps_extend_last_section (Review.ofForms [] 2) [] .judge
  obtain ⟨-, -, -, hgrows, -⟩ := steps_extend_last_section (Review.ofForms [] 2)
    [.enqueue [signature], .seekSignature] .judge
  refine ⟨hrefused.2 ⟨trivial, rfl⟩, hgrows nofun, ?_⟩
  have hopened : [.enqueue [signature], .seekSignature].foldl Review.attempt (Review.ofForms [] 2) =
      ⟨[], 2, [], [.ofName ['f']], [], .signatureFound ['f'] :: Signature.trace signature⟩ := by
    simp [Review.attempt, Review.perform, Review.seekSignature, Review.seekSignatureIn, hsignature,
      Review.openDesign, Review.ofForms, Review.report]
  rw [← ledger_ofForms, foldl_attempt_ledger, hopened, attempt_ledger]
  rfl

end Ledger

namespace Phase

open Review

/-- A complete review is never refused, whatever sections it starts from, and no review of a
`local` form is. It takes all forms, so that another one finds nothing to do. -/
theorem review_is_never_refused :
    (∀ l, ∃ done, (review inspect).run l = .ok done.groups done ∧ done.queue = [] ∧
        (review inspect).run done = .ok done.groups done) ∧
      (∀ d, inspect d = inspectWith inspect d ∧ ∃ ws, inspect d = .ok ws) ∧
      ∀ r : Review, (review inspect).run r.ledger =
        .ok (r.complete Definition.inspect).groups (r.complete Definition.inspect).ledger := by
  refine ⟨?_, ?_, ?_⟩
  · intro l
    obtain ⟨done, hdone, -, hempty⟩ := exists_run_complete answers_inspect.answered l
    refine ⟨done, ?_, hempty, ?_⟩
    · rw [review, run_bind_of_ok hdone]
      rfl
    · rw [review, run_bind_of_ok (run_complete_of_nil inspect hempty)]
      rfl
  · intro d
    exact ⟨inspect_eq_inspectWith d, answers_inspect.answered d⟩
  · intro r
    rw [review, run_bind_of_ok (run_complete_ledger answers_inspect r), ← groups_ledger]
    rfl

end Phase

end DesignRecipe
