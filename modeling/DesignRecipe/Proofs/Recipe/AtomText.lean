import DesignRecipe.Proofs.Form.AtomText
import DesignRecipe.Proofs.Recipe.Blockwise
import DesignRecipe.Proofs.Recipe.Inspection

/-!
# Reviews and the text of strings and block comments

A review says the same about a program whatever stands in its strings and block comments. If their
text is changed throughout, the program is divided into the same blocks, and the same warnings are
given, about tests that are changed likewise.
-/
namespace DesignRecipe

/-! ### Warnings -/

/-- Changes the text of strings and block comments in the tests that complaints are about. -/
def Complaint.mapText (change : Text → Text) : Complaint → Complaint
  | .noPurpose => .noPurpose
  | .fewTests tests => .fewTests tests
  | .strayDefinition name => .strayDefinition name
  | .strayTest test => .strayTest (test.mapText change)
  | .idleTest name test => .idleTest name (test.mapText change)

def Warning.mapText (change : Text → Text) (w : Warning) : Warning :=
  ⟨w.place, w.complaint.mapText change⟩

def Design.mapText (change : Text → Text) (d : Design) : Design :=
  { d with warnings := d.warnings.map (Warning.mapText change) }

def Section.mapText (change : Text → Text) : Section → Section
  | .opening ws => .opening (ws.map (Warning.mapText change))
  | .design d => .design (d.mapText change)

def Block.mapText (change : Text → Text) (b : Block) : Block :=
  ⟨b.name, b.signature.mapText change, b.purpose.map (Form.mapText change),
    b.body.map (Form.mapText change)⟩

variable (change : Text → Text)

namespace Section

@[simp] theorem title_mapText (s : Section) : (s.mapText change).title = s.title := by
  cases s <;> rfl

@[simp] theorem place_mapText (s : Section) : (s.mapText change).place = s.place := by
  cases s <;> rfl

@[simp] theorem warnings_mapText (s : Section) :
    (s.mapText change).warnings = s.warnings.map (Warning.mapText change) := by
  cases s <;> rfl

end Section

theorem Design.judge_mapText (threshold : Int) (d : Design) :
    (d.mapText change).judge threshold = (d.judge threshold).mapText change := by
  have hsame : ∀ c ∈ d.shortcomings threshold, c.mapText change = c := by
    intro c hc
    unfold shortcomings at hc
    rcases List.mem_append.1 hc with hc | hc
    · split_ifs at hc <;> simp_all [Complaint.mapText]
    · split_ifs at hc <;> simp_all [Complaint.mapText]
  have hverdict : (d.shortcomings threshold).map (Warning.mapText change ∘ .ofComplaint) =
      (d.shortcomings threshold).map .ofComplaint := by
    apply List.map_congr_left
    intro c hc
    exact congrArg Warning.ofComplaint (hsame c hc)
  change (d.mapText change).warn ((d.shortcomings threshold).map .ofComplaint) = _
  simp only [warn, mapText, judge, List.map_append, List.map_map, hverdict]

/-! ### Division into blocks -/

@[simp] theorem Signature.name?_mapText (f : Form) :
    Signature.name? (f.mapText change) = Signature.name? f := by
  cases f with
  | atom kind text => cases kind <;> rfl
  | list items => rw [Form.mapText_list]; rfl

@[simp] theorem Review.isPurpose_mapText (f : Form) :
    isPurpose (f.mapText change) = isPurpose f := by
  rw [isPurpose, isPurpose, Form.isComment_mapText, Form.isConstant_mapText]

@[simp] theorem Form.startsProgram_mapText (f : Form) :
    (f.mapText change).startsProgram = f.startsProgram := by
  rw [startsProgram, startsProgram, Definition.ofForm?_mapText]
  cases Definition.ofForm? f with
  | none => rfl
  | some d =>
    have hcalls := Definition.isInteractive_mapText change d
    rw [Definition.isInteractive, Definition.isInteractive] at hcalls
    simp only [Option.map_some, Option.any_some, Form.decide_hasCall]
    exact congrArg (!d.isTemplate && ·) hcalls

theorem Design.tally_mapText (n : ℕ) (f : Form) : tally n (f.mapText change) = tally n f := by
  rw [tally, tally, Form.startsProgram_mapText, Form.isTest_mapText]

/-- The first of changed forms is changed from the first form. -/
theorem Form.head?_map_mapText {items : List Form} {P : Form → Prop}
    (h : ∀ f, items.head? = some f → P (f.mapText change)) :
    ∀ f, (items.map (mapText change)).head? = some f → P f := by
  intro f hf
  rw [List.head?_map] at hf
  obtain ⟨g, hg, rfl⟩ := Option.map_eq_some_iff.1 hf
  exact h g hg

namespace Block

variable {b : Block} {blocks : List Block} {rest : List Form}

theorem forms_mapText (b : Block) :
    (b.mapText change).forms = b.forms.map (Form.mapText change) := by
  simp [forms, mapText]

theorem flatMap_forms_mapText (blocks : List Block) :
    (blocks.map (mapText change)).flatMap forms =
      (blocks.flatMap forms).map (Form.mapText change) := by
  rw [List.flatMap_map, List.map_flatMap]
  exact congrArg blocks.flatMap (funext fun b => forms_mapText change b)

theorem Fits.mapText (h : b.Fits rest) :
    (b.mapText change).Fits (rest.map (Form.mapText change)) where
  signature := (Signature.name?_mapText change b.signature).trans h.signature
  purpose := by
    intro f hf
    obtain ⟨g, hg, rfl⟩ := List.mem_map.1 hf
    rw [Review.isPurpose_mapText, h.purpose g hg]
  purpose_maximal := by
    rw [Block.mapText, ← List.map_append]
    apply Form.head?_map_mapText
    intro f hf
    rw [Review.isPurpose_mapText, h.purpose_maximal f hf]
  body := by
    intro f hf
    obtain ⟨g, hg, rfl⟩ := List.mem_map.1 hf
    rw [Signature.name?_mapText, h.body g hg]
  body_maximal := by
    apply Form.head?_map_mapText
    intro f hf
    rw [Signature.name?_mapText]
    exact h.body_maximal f hf

theorem Chained.mapText (h : Chained blocks) : Chained (blocks.map (mapText change)) := by
  induction h with
  | nil => exact .nil
  | cons hb _ ih =>
    have hfits := hb.mapText change
    rw [← flatMap_forms_mapText] at hfits
    exact .cons hfits ih

theorem purposeLines_mapText (b : Block) : (b.mapText change).purposeLines = b.purposeLines := by
  rw [purposeLines, purposeLines, mapText, List.countP_map]
  exact congrArg (List.countP · b.purpose) (funext fun f => Form.isComment_mapText change f)

theorem tests_mapText (b : Block) : (b.mapText change).tests = b.tests := by
  rw [tests, tests, ← foldl_tally, ← foldl_tally, mapText, List.foldl_map]
  simp only [Design.tally_mapText]

theorem isBare_mapText (b : Block) : (b.mapText change).IsBare ↔ b.IsBare := by
  simp [IsBare, mapText]

end Block

/-- Changed forms are divided like the forms themselves. -/
def Segmentation.mapText {forms : List Form} (s : Segmentation forms) :
    Segmentation (forms.map (Form.mapText change)) where
  opening := s.opening.map (Form.mapText change)
  blocks := s.blocks.map (Block.mapText change)
  opening_unsigned := by
    intro f hf
    obtain ⟨g, hg, rfl⟩ := List.mem_map.1 hf
    rw [Signature.name?_mapText, s.opening_unsigned g hg]
  chained := s.chained.mapText change
  forms_eq := by rw [Block.flatMap_forms_mapText, ← List.map_append, s.forms_eq]

/-! ### Reviews -/

/-- The inspector says the same whatever stands in strings and block comments. -/
def Inspector.IgnoresText (inspect : Inspector) : Prop :=
  ∀ d : Definition,
    (inspect (d.mapText change)).warnings = (inspect d).warnings.map (Warning.mapText change)

variable {change} {inspect : Inspector}

namespace Review

theorem strayWarnings_mapText (h : inspect.IgnoresText change) (f : Form) :
    strayWarnings inspect (f.mapText change) =
      (strayWarnings inspect f).map (Warning.mapText change) := by
  rw [strayWarnings, strayWarnings, Definition.ofForm?_mapText, Form.isTest_mapText]
  cases Definition.ofForm? f with
  | none =>
    dsimp only [Option.map_none]
    split_ifs <;> rfl
  | some e =>
    have htemplate : (e.mapText change).isTemplate = e.isTemplate := rfl
    dsimp only [Option.map_some]
    rw [h e, htemplate]
    split_ifs <;> rfl

theorem memberWarnings_mapText (h : inspect.IgnoresText change) (name : Text) (f : Form) :
    memberWarnings inspect name (f.mapText change) =
      (memberWarnings inspect name f).map (Warning.mapText change) := by
  rw [memberWarnings, memberWarnings, Definition.ofForm?_mapText, Form.tested?_mapText]
  cases Definition.ofForm? f with
  | none =>
    cases f.tested? with
    | none => rfl
    | some actual =>
      dsimp only [Option.map_none, Option.map_some]
      rw [Form.callsFunction_mapText]
      split_ifs <;> rfl
  | some e =>
    have htemplate : (e.mapText change).isTemplate = e.isTemplate := rfl
    have hname : (e.mapText change).name = e.name := rfl
    dsimp only [Option.map_some]
    rw [h e, htemplate, hname]
    split_ifs <;> rfl

end Review

theorem Block.draft_mapText (h : inspect.IgnoresText change) (b : Block) :
    (b.mapText change).draft inspect = (b.draft inspect).mapText change := by
  have hwarnings : (b.mapText change).body.flatMap (Review.memberWarnings inspect b.name) =
      (b.body.flatMap (Review.memberWarnings inspect b.name)).map (Warning.mapText change) := by
    rw [mapText, List.flatMap_map, List.map_flatMap]
    exact congrArg b.body.flatMap (funext (Review.memberWarnings_mapText h b.name))
  rw [draft, draft, purposeLines_mapText, tests_mapText]
  exact congrArg (Design.mk b.name b.purposeLines b.tests) hwarnings

theorem Block.design_mapText (h : inspect.IgnoresText change) (threshold : Int) (b : Block) :
    (b.mapText change).design inspect threshold =
      (b.design inspect threshold).mapText change := by
  rw [design, design, draft_mapText h, Design.judge_mapText]
  simp only [isBare_mapText]
  split_ifs <;> rfl

namespace Review

theorem sections_complete_mapText (h : inspect.IgnoresText change) (forms : List Form)
    (threshold : Int) :
    ((ofForms (forms.map (Form.mapText change)) threshold).complete inspect).sections =
      ((ofForms forms threshold).complete inspect).sections.map (Section.mapText change) := by
  obtain ⟨s⟩ : Nonempty (Segmentation forms) := inferInstance
  have hopening : (s.mapText change).opening.flatMap (strayWarnings inspect) =
      (s.opening.flatMap (strayWarnings inspect)).map (Warning.mapText change) := by
    rw [Segmentation.mapText, List.flatMap_map, List.map_flatMap]
    exact congrArg s.opening.flatMap (funext (strayWarnings_mapText h))
  have hblocks : ((s.mapText change).blocks.map (Block.design inspect threshold)).map
      Section.design = ((s.blocks.map (Block.design inspect threshold)).map Section.design).map
        (Section.mapText change) := by
    simp only [Segmentation.mapText, List.map_map]
    apply List.map_congr_left
    intro b _
    exact congrArg Section.design (Block.design_mapText h threshold b)
  rw [sections_complete inspect (s.mapText change), sections_complete inspect s, hopening, hblocks]
  rfl

theorem localWarnings_mapText (h : inspect.IgnoresText change) (forms : List Form) :
    ((ofForms (forms.map (Form.mapText change)) 0).complete inspect).localWarnings =
      ((ofForms forms 0).complete inspect).localWarnings.map (Warning.mapText change) := by
  rw [localWarnings, localWarnings, sections_complete_mapText h, List.flatMap_map,
    List.map_flatMap]
  apply List.flatMap_congr
  intro s _
  rw [Section.warnings_mapText, Section.place_mapText, List.map_map, List.map_map]
  rfl

end Review

namespace Definition

theorem inspectWith_ignoresText (h : inspect.IgnoresText change) :
    Inspector.IgnoresText change (inspectWith inspect) := by
  intro d
  rw [warnings_inspectWith, warnings_inspectWith, localForms_mapText, List.flatMap_map,
    List.map_flatMap]
  exact congrArg d.localForms.flatMap (funext (Review.localWarnings_mapText h))

theorem inspectTo_ignoresText (level : ℕ) : Inspector.IgnoresText change (inspectTo level) := by
  induction level with
  | zero => exact fun _ => rfl
  | succ level ih => exact inspectWith_ignoresText ih

theorem inspect_ignoresText : Inspector.IgnoresText change Definition.inspect := by
  intro d
  have hdepth : (d.mapText change).body.depth = d.body.depth := Form.depth_mapText change d.body
  rw [Definition.inspect, hdepth]
  exact inspectTo_ignoresText d.body.depth d

end Definition

/-- The review of a changed program is made of the same sections, with changed tests in what is
said. -/
theorem Review.sections_ofProgram_mapText (forms : List Form) (threshold : Int) :
    (ofProgram (forms.map (Form.mapText change)) threshold).sections =
      (ofProgram forms threshold).sections.map (Section.mapText change) :=
  sections_complete_mapText Definition.inspect_ignoresText forms threshold

end DesignRecipe
