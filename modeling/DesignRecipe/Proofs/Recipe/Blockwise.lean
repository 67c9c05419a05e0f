import DesignRecipe.Proofs.Recipe.Segmentation
import DesignRecipe.Recipe.Locals
import Mathlib.Data.List.Forall2

/-!
# Reviewing block by block

A review handles every block by itself. What it says about a form depends on the block in which
the form stands only, and the review as a whole is made of the parts for the opening and for each
block. The trace is left open here.
-/
namespace DesignRecipe

/-- The template that a form defines. -/
def Form.template? (f : Form) : Option Definition :=
  (Definition.ofForm? f).filter Definition.isTemplate

namespace Review

variable (inspect : Inspector)

/-- What is said about a form in front of all signatures. -/
def strayWarnings (f : Form) : List Warning :=
  match Definition.ofForm? f with
  | some e =>
    if e.isTemplate then [] else .ofComplaint (.strayDefinition e.name) :: (inspect e).warnings
  | none => if f.isTest then [.ofComplaint (.strayTest f)] else []

/-- What is said about a form in the body of the design of `name`. -/
def memberWarnings (name : Text) (f : Form) : List Warning :=
  match Definition.ofForm? f with
  | some e =>
    if e.isTemplate then []
    else (if name = e.name then [] else [.ofComplaint (.strayDefinition e.name)]) ++
      (inspect e).warnings
  | none =>
    match f.tested? with
    | none => []
    | some actual =>
      if actual.callsFunction name then [] else [.ofComplaint (.idleTest name f)]

section origin

variable {inspect : Inspector} {P : Warning → Prop} {f : Form}

/-- Warnings about a stray form are about the form itself or about the inside of a definition. -/
theorem forall_mem_strayWarnings
    (hdefinition : ∀ e, Definition.ofForm? f = some e → P (.ofComplaint (.strayDefinition e.name)))
    (htest : P (.ofComplaint (.strayTest f)))
    (hinside : ∀ e, Definition.ofForm? f = some e → ∀ w ∈ (inspect e).warnings, P w) :
    ∀ w ∈ strayWarnings inspect f, P w := by
  intro w hw
  unfold strayWarnings at hw
  split at hw
  · next e he =>
    split_ifs at hw
    · cases hw
    · rcases List.mem_cons.1 hw with rfl | hw
      · exact hdefinition e he
      · exact hinside e he w hw
  · split_ifs at hw
    · rw [List.mem_singleton.1 hw]
      exact htest
    · cases hw

/-- Warnings about a member of a design are about the form itself or about the inside of a
definition. -/
theorem forall_mem_memberWarnings {name : Text}
    (hdefinition : ∀ e, Definition.ofForm? f = some e → P (.ofComplaint (.strayDefinition e.name)))
    (htest : P (.ofComplaint (.idleTest name f)))
    (hinside : ∀ e, Definition.ofForm? f = some e → ∀ w ∈ (inspect e).warnings, P w) :
    ∀ w ∈ memberWarnings inspect name f, P w := by
  intro w hw
  unfold memberWarnings at hw
  split at hw
  · next e he =>
    split_ifs at hw
    · cases hw
    · exact hinside e he w hw
    · rcases List.mem_cons.1 hw with rfl | hw
      · exact hdefinition e he
      · exact hinside e he w hw
  · split at hw
    · cases hw
    · split_ifs at hw
      · cases hw
      · rw [List.mem_singleton.1 hw]
        exact htest

end origin

end Review

namespace Design

variable (inspect : Inspector)

/-- The number of tests behind a form of a body, if there were `n` in front of it. -/
def tally (n : Nat) (f : Form) : Nat :=
  if f.startsProgram then interactiveTests else if f.isTest then n + 1 else n

/-- What a form of its body makes of a design. -/
def absorb (d : Design) (f : Form) : Design :=
  { d with
    tests := tally d.tests f
    warnings := d.warnings ++ Review.memberWarnings inspect d.name f }

end Design

/-! ### Counting tests -/

section tests

variable {f : Form} {e : Definition}

/-- No form is both a definition and a test. -/
theorem tested?_eq_none_of_definition (h : Definition.ofForm? f = some e) : f.tested? = none := by
  unfold Definition.ofForm? at h
  split at h
  · next head header body =>
    split_ifs at h with hdefine
    · have hname : head.name? = some "define".toList := by
        simpa [isDefine, Form.isNamed] using hdefine
      have hnone : testNames.contains "define".toList = false := by decide
      rw [Form.tested?, hname, Option.any_some, hnone, if_neg Bool.false_ne_true]
  · cases h

theorem startsProgram_eq_of_definition (h : Definition.ofForm? f = some e) :
    f.startsProgram = (!e.isTemplate && e.isInteractive) := by
  rw [Form.startsProgram, h, Option.any_some, Form.decide_hasCall, Definition.isInteractive]

theorem startsProgram_eq_false (h : Definition.ofForm? f = none) : f.startsProgram = false := by
  rw [Form.startsProgram, h]
  rfl

open Design in
/-- Counting form by form gives the tests behind the last definition that starts a program. -/
theorem foldl_tally (body : List Form) :
    body.foldl tally 0 = if body.any Form.startsProgram then
      1000 + (body.rtakeWhile (!·.startsProgram)).countP Form.isTest
    else body.countP Form.isTest := by
  induction body using List.reverseRecOn with
  | nil => rfl
  | append_singleton body f ih =>
    rw [List.foldl_concat, ih, List.any_append, List.rtakeWhile_concat, List.countP_append, tally]
    by_cases hprogram : f.startsProgram = true
    · simp [hprogram, interactiveTests]
    · by_cases hbefore : body.any Form.startsProgram = true <;>
        by_cases htest : f.isTest = true <;> simp [hprogram, hbefore, htest, Nat.add_assoc]

end tests

/-! ### One form -/

namespace Review

variable (inspect : Inspector) {r : Review} {d : Design} {earlier : List Design}

theorem warn_of_opening (hr : r.designs = []) (ws : List Warning) :
    r.warn ws = { r with opening := r.opening ++ ws } := by
  rw [warn, hr]

theorem amend_of_current (hr : r.designs = d :: earlier) (change : Design → Design) :
    r.amend change = { r with designs := change d :: earlier } := by
  rw [amend, hr]

/-- A form in front of all signatures leaves its warnings in the opening. -/
theorem noteStray_eq (hr : r.designs = []) (f : Form) :
    ∃ trace, r.noteStray inspect f =
      { r with
        opening := r.opening ++ strayWarnings inspect f
        templates := r.templates ++ f.template?.toList
        trace } := by
  unfold noteStray strayWarnings Form.template?
  cases hf : Definition.ofForm? f with
  | none =>
    by_cases htest : f.isTest = true
    · exact ⟨r.trace, by simp [htest, complain, warn_of_opening hr]⟩
    · exact ⟨r.trace, by simp [htest]⟩
  | some e =>
    by_cases htemplate : e.isTemplate = true
    · exact ⟨r.trace, by simp [noteDefinition, htemplate, Option.filter]⟩
    · refine ⟨(inspect e).trace ++ r.trace, ?_⟩
      simp [noteDefinition, htemplate, complain, warn, report, hr]

/-- A form in the body of the current design changes that design only. -/
theorem noteMember_eq (hr : r.designs = d :: earlier) (f : Form) :
    ∃ trace, r.noteMember inspect d.name f =
      { r with
        designs := d.absorb inspect f :: earlier
        templates := r.templates ++ f.template?.toList
        trace } := by
  unfold noteMember Design.absorb memberWarnings Form.template?
  cases hf : Definition.ofForm? f with
  | none =>
    have hprogram := startsProgram_eq_false hf
    cases htested : f.tested? with
    | none =>
      have htest : f.isTest = false := by rw [Form.isTest, htested]; rfl
      exact ⟨r.trace, by simp [Design.tally, hprogram, htest, ← hr]⟩
    | some actual =>
      have htest : f.isTest = true := by rw [Form.isTest, htested]; rfl
      refine ⟨r.trace, ?_⟩
      by_cases hcalls : actual.callsFunction d.name = true
      · simp [Design.tally, hprogram, htest, hcalls, amend_of_current hr, Design.countTest]
      · simp [Design.tally, hprogram, htest, hcalls, amend_of_current hr, Design.countTest,
          complain, warn, Design.warn]
  | some e =>
    have hprogram := startsProgram_eq_of_definition hf
    have htest : f.isTest = false := by rw [Form.isTest, tested?_eq_none_of_definition hf]; rfl
    by_cases htemplate : e.isTemplate = true
    · refine ⟨r.trace, ?_⟩
      simp [noteDefinition, Design.tally, hprogram, htest, htemplate, Option.filter, ← hr]
    · refine ⟨(inspect e).trace ++ r.trace, ?_⟩
      by_cases hinteractive : e.isInteractive = true <;> by_cases hname : d.name = e.name <;>
        simp [noteDefinition, Design.tally, hprogram, htest, htemplate, hinteractive, hname,
          amend, complain, warn, report, Design.warn, Design.exempt, hr]

/-! ### One phase -/

/-- Up to the first signature everything goes to the opening. -/
theorem seekSignatureIn_append {opening : List Form} (rest : List Form)
    (hopening : ∀ f ∈ opening, Signature.name? f = none) (hr : r.designs = []) :
    ∃ trace, r.seekSignatureIn inspect (opening ++ rest) =
      seekSignatureIn inspect rest
        { r with
          opening := r.opening ++ opening.flatMap (strayWarnings inspect)
          templates := r.templates ++ opening.filterMap Form.template?
          trace } := by
  induction opening generalizing r with
  | nil => exact ⟨r.trace, by simp⟩
  | cons f opening ih =>
    obtain ⟨hf, hopening⟩ := List.forall_mem_cons.1 hopening
    obtain ⟨trace, hstep⟩ := noteStray_eq inspect (r := r.report (Signature.trace f)) hr f
    obtain ⟨trace', hrest⟩ := ih hopening
      (r := (r.report (Signature.trace f)).noteStray inspect f) (by rw [hstep]; exact hr)
    refine ⟨trace', ?_⟩
    rw [List.cons_append, seekSignatureIn, hf]
    dsimp only
    rw [hrest, hstep]
    cases ht : f.template? <;> simp [report, ht]

/-- A signature in front of the queue opens its design. -/
theorem seekSignature_of_signature {f : Form} {name : Text} {rest : List Form}
    (hqueue : r.queue = f :: rest) (hf : Signature.name? f = some name) :
    ∃ trace, r.seekSignature inspect =
      { r with queue := rest, designs := .ofName name :: r.designs, trace } := by
  refine ⟨.signatureFound name :: (Signature.trace f ++ r.trace), ?_⟩
  rw [seekSignature, hqueue, seekSignatureIn, hf]
  rfl

/-- Up to the next signature everything goes to the current design. -/
theorem readTestsIn_append {name : Text} {body rest : List Form}
    (hbody : ∀ f ∈ body, Signature.name? f = none)
    (hrest : ∀ f, rest.head? = some f → Signature.name? f ≠ none)
    (hr : r.designs = d :: earlier) (hname : name = d.name) :
    ∃ trace, r.readTestsIn inspect name (body ++ rest) =
      { r with
        queue := rest
        designs := body.foldl (Design.absorb inspect) d :: earlier
        templates := r.templates ++ body.filterMap Form.template?
        trace } := by
  induction body generalizing r d with
  | nil =>
    cases rest with
    | nil => exact ⟨r.trace, by simp [readTestsIn, ← hr]⟩
    | cons f rest =>
      refine ⟨Signature.trace f ++ r.trace, ?_⟩
      simp [readTestsIn, Option.isSome_iff_ne_none.2 (hrest f rfl), report, ← hr]
  | cons f body ih =>
    obtain ⟨hf, hbody⟩ := List.forall_mem_cons.1 hbody
    obtain ⟨trace, hstep⟩ := noteMember_eq inspect (r := r.report (Signature.trace f)) hr f
    rw [← hname] at hstep
    obtain ⟨trace', hothers⟩ := ih hbody (d := d.absorb inspect f)
      (r := (r.report (Signature.trace f)).noteMember inspect name f) (by rw [hstep]) hname
    refine ⟨trace', ?_⟩
    rw [List.cons_append, readTestsIn, hf]
    simp only [Option.isSome_none, Bool.false_eq_true, if_false]
    rw [hothers, hstep]
    cases ht : f.template? <;> simp [report, ht]

theorem readTests_append {body rest : List Form} (hqueue : r.queue = body ++ rest)
    (hbody : ∀ f ∈ body, Signature.name? f = none)
    (hrest : ∀ f, rest.head? = some f → Signature.name? f ≠ none)
    (hr : r.designs = d :: earlier) :
    ∃ trace, r.readTests inspect =
      { r with
        queue := rest
        designs := body.foldl (Design.absorb inspect) d :: earlier
        templates := r.templates ++ body.filterMap Form.template?
        trace } := by
  rw [readTests, hr, hqueue]
  exact readTestsIn_append inspect hbody hrest hr rfl

end Review

/-! ### One block -/

namespace Block

variable {inspect : Inspector} {b : Block} {rest : List Form}

/-- The design of a block before the verdict. -/
def draft (inspect : Inspector) (b : Block) : Design :=
  ⟨b.name, b.purposeLines, b.tests, b.body.flatMap (Review.memberWarnings inspect b.name)⟩

/-- There is nothing behind the signature. -/
def IsBare (b : Block) : Prop := b.purpose = [] ∧ b.body = []

instance (b : Block) : Decidable b.IsBare := inferInstanceAs (Decidable (_ ∧ _))

theorem draft_of_isBare (hbare : b.IsBare) : b.draft inspect = .ofName b.name := by
  obtain ⟨hpurpose, hbody⟩ := hbare
  simp [draft, purposeLines, tests, hpurpose, hbody, Design.ofName]

/-- The design of a block at the end. No verdict is passed on a signature alone. -/
def design (inspect : Inspector) (threshold : Int) (b : Block) : Design :=
  if b.IsBare then b.draft inspect else (b.draft inspect).judge threshold

theorem foldl_absorb (body : List Form) (d : Design) :
    body.foldl (Design.absorb inspect) d =
      { d with
        tests := body.foldl Design.tally d.tests
        warnings := d.warnings ++ body.flatMap (Review.memberWarnings inspect d.name) } := by
  induction body generalizing d with
  | nil => simp
  | cons f body ih =>
    rw [List.foldl_cons, ih]
    simp [Design.absorb]

theorem draft_eq_foldl (b : Block) :
    b.draft inspect =
      b.body.foldl (Design.absorb inspect)
        ((Design.ofName b.name).addPurposeLines b.purposeLines) := by
  rw [foldl_absorb]
  simp [draft, Design.addPurposeLines, Design.ofName, tests, foldl_tally]

/-- A signature alone is the end of the program: the purpose statement would swallow what
follows if it were a signature. -/
theorem Fits.rest_eq_nil (h : b.Fits rest) (hbare : b.IsBare) : rest = [] := by
  cases rest with
  | nil => rfl
  | cons f rest =>
    have hpurpose := isPurpose_of_signature (h.body_maximal f rfl)
    have hnot := h.purpose_maximal f (by rw [hbare.2]; rfl)
    simp [hpurpose] at hnot

end Block

namespace Review

variable (inspect : Inspector) {r : Review} {b : Block} {rest : List Form} {earlier : List Design}

theorem finishDesign_eq (hqueue : r.queue = b.purpose ++ (b.body ++ rest)) (hb : b.Fits rest)
    (hr : r.designs = .ofName b.name :: earlier) :
    ∃ trace, r.finishDesign inspect =
      { r with
        queue := rest
        designs := (b.draft inspect).judge r.threshold :: earlier
        templates := r.templates ++ b.body.filterMap Form.template?
        trace } := by
  let d := (Design.ofName b.name).addPurposeLines b.purposeLines
  have hpurpose : r.readPurpose =
      { r with queue := b.body ++ rest, designs := d :: earlier } := by
    rw [readPurpose, amend_of_current hr, hqueue, hb.takeWhile_isPurpose, hb.dropWhile_isPurpose]
    rfl
  obtain ⟨trace, htests⟩ := readTests_append inspect
    (r := { r with queue := b.body ++ rest, designs := d :: earlier })
    rfl hb.body hb.body_maximal rfl
  refine ⟨trace, ?_⟩
  rw [finishDesign, hpurpose, htests, judge, amend_of_current rfl, Block.draft_eq_foldl]

/-- A block at the front of the queue gives its design, and the review goes on behind it. -/
theorem complete_block (hqueue : r.queue = b.forms ++ rest) (hb : b.Fits rest) :
    ∃ trace, r.complete inspect =
      complete inspect
        { r with
          queue := rest
          designs := b.design inspect r.threshold :: r.designs
          templates := r.templates ++ b.body.filterMap Form.template?
          trace } := by
  have hcons : r.queue = b.signature :: (b.purpose ++ (b.body ++ rest)) := by
    simpa [Block.forms] using hqueue
  obtain ⟨trace, hopened⟩ := seekSignature_of_signature inspect hcons hb.signature
  have hne : r.queue ≠ [] := by simp [hcons]
  rw [complete_of_ne_nil inspect hne, hopened]
  by_cases hbare : b.IsBare
  · have hrest := hb.rest_eq_nil hbare
    have hdesign : b.design inspect r.threshold = .ofName b.name := by
      rw [Block.design, if_pos hbare, b.draft_of_isBare hbare]
    obtain ⟨hpurpose, hbody⟩ := hbare
    refine ⟨trace, ?_⟩
    rw [if_pos (by simp [hpurpose, hbody, hrest]), complete_of_nil inspect hrest, hdesign]
    simp [hpurpose, hbody, hrest]
  · have hbehind : b.purpose ++ (b.body ++ rest) ≠ [] := by
      intro hnil
      simp only [List.append_eq_nil_iff] at hnil
      exact hbare ⟨hnil.1, hnil.2.1⟩
    obtain ⟨trace', hfinish⟩ := finishDesign_eq inspect (b := b)
      (r := { r with
        queue := b.purpose ++ (b.body ++ rest), designs := .ofName b.name :: r.designs, trace })
      rfl hb rfl
    refine ⟨trace', ?_⟩
    rw [if_neg hbehind, hfinish, Block.design, if_neg hbare]

/-- Blocks in the queue are worked off one after the other. -/
theorem complete_blocks {blocks : List Block} (hqueue : r.queue = blocks.flatMap Block.forms)
    (hblocks : Block.Chained blocks) :
    ∃ trace, r.complete inspect =
      { r with
        queue := []
        designs := (blocks.map (Block.design inspect r.threshold)).reverse ++ r.designs
        templates := r.templates ++ blocks.flatMap fun b => b.body.filterMap Form.template?
        trace } := by
  induction hblocks generalizing r with
  | nil =>
    have hnil : r.queue = [] := hqueue
    refine ⟨r.trace, ?_⟩
    rw [complete_of_nil inspect hnil]
    simp [← hnil]
  | cons hb _ ih =>
    obtain ⟨trace, hfirst⟩ := complete_block inspect hqueue hb
    obtain ⟨trace', hothers⟩ := ih (r := { r with
      queue := _, designs := _ :: r.designs, templates := _, trace }) rfl
    refine ⟨trace', ?_⟩
    rw [hfirst, hothers]
    simp

/-- The opening is worked off before the first block. -/
theorem complete_opening {opening : List Form} {blocks : List Block}
    (hqueue : r.queue = opening ++ blocks.flatMap Block.forms)
    (hopening : ∀ f ∈ opening, Signature.name? f = none) (hblocks : Block.Chained blocks)
    (hr : r.designs = []) :
    ∃ trace, r.complete inspect =
      complete inspect
        { r with
          queue := blocks.flatMap Block.forms
          opening := r.opening ++ opening.flatMap (strayWarnings inspect)
          templates := r.templates ++ opening.filterMap Form.template?
          trace } := by
  by_cases hnil : r.queue = []
  · obtain ⟨rfl, hrest⟩ := List.append_eq_nil_iff.1 (hqueue.symm.trans hnil)
    refine ⟨r.trace, ?_⟩
    simp only [List.flatMap_nil, List.filterMap_nil, List.append_nil, hrest]
    rw [← hnil]
  · obtain ⟨trace, happend⟩ := seekSignatureIn_append inspect
      (blocks.flatMap Block.forms) hopening hr
    refine ⟨trace, ?_⟩
    generalize hopened : Review.mk (blocks.flatMap Block.forms) _ _ _ _ trace = opened
    have hseek : r.seekSignature inspect = opened.seekSignature inspect := by
      rw [seekSignature, hqueue, happend, ← hopened]
      cases hblocks with
      | nil => rfl
      | cons hb _ =>
        simp [seekSignature, Block.forms, seekSignatureIn, hb.signature, report, openDesign]
    cases hblocks with
    | nil =>
      have hexhausted : opened.seekSignature inspect = opened := by rw [← hopened]; rfl
      have hqueue' : opened.queue = [] := by rw [← hopened]; rfl
      rw [complete_of_ne_nil inspect hnil, hseek, hexhausted, if_pos hqueue',
        complete_of_nil inspect hqueue']
    | cons hb _ =>
      have hne : opened.queue ≠ [] := by rw [← hopened]; simp [Block.forms]
      rw [complete_of_ne_nil inspect hnil, complete_of_ne_nil inspect hne, hseek]

/-- A review of a program consists of the parts for the opening and for each block. -/
theorem complete_ofForms {forms : List Form} (s : Segmentation forms) (threshold : Int) :
    ∃ trace, (ofForms forms threshold).complete inspect =
      { queue := []
        threshold
        opening := s.opening.flatMap (strayWarnings inspect)
        designs := (s.blocks.map (Block.design inspect threshold)).reverse
        templates := s.opening.filterMap Form.template? ++
          s.blocks.flatMap fun b => b.body.filterMap Form.template?
        trace } := by
  obtain ⟨trace, hopening⟩ := complete_opening inspect (r := ofForms forms threshold)
    s.forms_eq.symm s.opening_unsigned s.chained rfl
  generalize hopened : Review.mk (s.blocks.flatMap Block.forms) _ _ _ _ trace = opened at hopening
  obtain ⟨trace', hblocks⟩ := complete_blocks inspect (r := opened)
    (by rw [← hopened]) s.chained
  refine ⟨trace', ?_⟩
  rw [hopening, hblocks, ← hopened]
  simp [ofForms]

/-! ### Programs -/

section program

variable {forms : List Form}

theorem sections_complete (s : Segmentation forms) (threshold : Int) :
    ((ofForms forms threshold).complete inspect).sections =
      .opening (s.opening.flatMap (strayWarnings inspect)) ::
        (s.blocks.map (Block.design inspect threshold)).map .design := by
  obtain ⟨trace, hcomplete⟩ := complete_ofForms inspect s threshold
  rw [hcomplete, sections, List.reverse_reverse]

theorem sections_ofProgram (s : Segmentation forms) (threshold : Int) :
    (ofProgram forms threshold).sections =
      .opening (s.opening.flatMap (strayWarnings Definition.inspect)) ::
        (s.blocks.map (Block.design Definition.inspect threshold)).map .design :=
  sections_complete Definition.inspect s threshold

theorem templates_ofProgram (s : Segmentation forms) (threshold : Int) :
    (ofProgram forms threshold).templates =
      s.opening.filterMap Form.template? ++
        s.blocks.flatMap fun b => b.body.filterMap Form.template? := by
  obtain ⟨trace, hcomplete⟩ := complete_ofForms Definition.inspect s threshold
  rw [ofProgram, hcomplete]

/-- A program without signatures. -/
theorem sections_of_unsigned (h : ∀ f ∈ forms, Signature.name? f = none) (threshold : Int) :
    (ofProgram forms threshold).sections =
      [.opening (forms.flatMap (strayWarnings Definition.inspect))] :=
  sections_ofProgram ⟨forms, [], h, .nil, by simp⟩ threshold

/-- A program of a single block. -/
theorem sections_of_block {b : Block} (hb : b.Fits []) (threshold : Int) :
    (ofProgram b.forms threshold).sections =
      [.opening [], .design (b.design Definition.inspect threshold)] :=
  sections_ofProgram ⟨[], [b], by simp, .cons hb .nil, by simp⟩ threshold

/-- The designs of a program are those of its blocks, in order. -/
theorem designs_follow_blocks (forms : List Form) (threshold : Int) :
    ∃ s : Segmentation forms, (∀ other : Segmentation forms, other = s) ∧
      ∃ warnings designs,
        (ofProgram forms threshold).sections = .opening warnings :: designs.map .design ∧
        List.Forall₂ (fun d b => d.name = b.name ∧ d.purposeLines = b.purposeLines ∧
          d.tests = b.tests) designs s.blocks := by
  obtain ⟨s⟩ : Nonempty (Segmentation forms) := inferInstance
  refine ⟨s, fun other => Subsingleton.elim other s, _, _, sections_ofProgram s threshold, ?_⟩
  rw [List.forall₂_map_left_iff, List.forall₂_same]
  intro b _
  rw [Block.design]
  split_ifs <;> exact ⟨rfl, rfl, rfl⟩

end program

end Review

end DesignRecipe
