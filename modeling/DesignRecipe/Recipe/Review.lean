import DesignRecipe.Recipe.Definition
import DesignRecipe.Recipe.Design
import DesignRecipe.Recipe.Signature

/-!
# Reviews

A review takes forms from the front of a queue, one design after the other and each in
phases: up to the signature, the purpose statement, the tests, the verdict. Every phase is
a function on the state of the review. What is to be said about the inside of a definition
is asked of an inspector.
-/
namespace DesignRecipe

/-- What was found inside a definition. -/
structure Findings where
  warnings : List Warning
  trace : Trace

namespace Findings

def none : Findings := ⟨[], []⟩

/-- The first findings and then the second. -/
def andThen (a b : Findings) : Findings := ⟨a.warnings ++ b.warnings, b.trace ++ a.trace⟩

end Findings

abbrev Inspector := Definition → Findings

/-- `opening` holds the warnings before the first design; `designs` has the latest, which is
the current one, first. A design with fewer than `threshold` tests is complained about. -/
structure Review where
  queue : List Form
  threshold : Int
  opening : List Warning
  designs : List Design
  templates : List Definition
  trace : Trace

namespace Review

def ofForms (forms : List Form) (threshold : Int) : Review := ⟨forms, threshold, [], [], [], []⟩

inductive Fault where
  /-- Only what was read to a proper end can be reviewed. -/
  | unfinished (status : Reader.Status)
  /-- A phase that works on the current design finds none. -/
  | noDesign
  deriving DecidableEq, Repr

def Fault.message : Fault → Text
  | .unfinished status =>
    "Can't create linter for unfinished parser (".toList ++ status.label ++ [')']
  | .noDesign => "The warning list at the current position is not a FunctionDesign".toList

def ofReader (r : Reader) (threshold : Int) : Except Fault Review :=
  if r.status = .complete then .ok (ofForms r.forms threshold) else .error (.unfinished r.status)

/-- All sections in the order of the program. -/
def sections (r : Review) : List Section := .opening r.opening :: r.designs.reverse.map .design

/-- The sections that have warnings. -/
def groups (r : Review) : List Group :=
  (r.sections.filter fun s => !s.warnings.isEmpty).map Section.group

def current (r : Review) : Except Fault Design :=
  match r.designs with
  | [] => .error .noDesign
  | d :: _ => .ok d

/-- Changes the current design, if there is one. -/
def amend (f : Design → Design) (r : Review) : Review :=
  match r.designs with
  | [] => r
  | d :: earlier => { r with designs := f d :: earlier }

/-- Adds warnings to the current section. -/
def warn (ws : List Warning) (r : Review) : Review :=
  match r.designs with
  | [] => { r with opening := r.opening ++ ws }
  | d :: earlier => { r with designs := d.warn ws :: earlier }

def complain (c : Complaint) (r : Review) : Review := r.warn [.ofComplaint c]

def report (t : Trace) (r : Review) : Review := { r with trace := t ++ r.trace }

def openDesign (name : Text) (r : Review) : Review :=
  { r with designs := .ofName name :: r.designs, trace := .signatureFound name :: r.trace }

variable (inspect : Inspector)

/-- Takes note of a definition inside the design of `owner`, or outside of every design. A
template is only remembered. -/
def noteDefinition (owner : Option Text) (d : Definition) (r : Review) : Review :=
  if d.isTemplate then { r with templates := r.templates ++ [d] }
  else
    let exempted := if owner.isSome && d.isInteractive then r.amend .exempt else r
    let judged := if owner = some d.name then exempted else exempted.complain (.strayDefinition d.name)
    let found := inspect d
    (judged.warn found.warnings).report found.trace

/-- Takes note of a form that stands before a signature. -/
def noteStray (f : Form) (r : Review) : Review :=
  match Definition.ofForm? f with
  | some d => r.noteDefinition inspect none d
  | none => if f.isTest then r.complain (.strayTest f) else r

/-- Takes note of a form in the design of the function `name`. -/
def noteMember (name : Text) (f : Form) (r : Review) : Review :=
  match Definition.ofForm? f with
  | some d => r.noteDefinition inspect (some name) d
  | none =>
    match f.tested? with
    | none => r
    | some actual =>
      if actual.callsFunction name then r.amend .countTest
      else (r.amend .countTest).complain (.idleTest name f)

/-- Takes forms through the first signature, which opens a design. -/
def seekSignatureIn : List Form → Review → Review
  | [], r => { r with queue := [] }
  | f :: rest, r =>
    match Signature.name? f with
    | some name => (({ r with queue := rest }).report (Signature.trace f)).openDesign name
    | none => seekSignatureIn rest ((r.report (Signature.trace f)).noteStray inspect f)

def seekSignature (r : Review) : Review := r.seekSignatureIn inspect r.queue

/-- A purpose statement consists of comments, among which constants may stand. -/
def isPurpose (f : Form) : Bool := f.isComment || f.isConstant

/-- Takes the purpose statement at the front. -/
def readPurpose (r : Review) : Review :=
  let lines := (r.queue.takeWhile isPurpose).countP Form.isComment
  { r.amend (.addPurposeLines lines) with queue := r.queue.dropWhile isPurpose }

/-- Takes forms up to the next signature, for the design of the function `name`. -/
def readTestsIn (name : Text) : List Form → Review → Review
  | [], r => { r with queue := [] }
  | f :: rest, r =>
    if (Signature.name? f).isSome then ({ r with queue := f :: rest }).report (Signature.trace f)
    else readTestsIn name rest ((r.report (Signature.trace f)).noteMember inspect name f)

/-- Takes the rest of the current design; without a design there is nothing to take. -/
def readTests (r : Review) : Review :=
  match r.designs with
  | [] => r
  | d :: _ => r.readTestsIn inspect d.name r.queue

/-- Passes the verdict on the current design. -/
def judge (r : Review) : Review := r.amend (.judge r.threshold)

section Queue

variable {r : Review}

@[simp] theorem queue_amend (f : Design → Design) : (r.amend f).queue = r.queue := by
  unfold amend; split <;> rfl

@[simp] theorem queue_warn (ws : List Warning) : (r.warn ws).queue = r.queue := by
  unfold warn; split <;> rfl

@[simp] theorem queue_report (t : Trace) : (r.report t).queue = r.queue := rfl

@[simp] theorem queue_openDesign (name : Text) : (r.openDesign name).queue = r.queue := rfl

@[simp] theorem queue_judge : r.judge.queue = r.queue := queue_amend _

@[simp] theorem queue_readPurpose : r.readPurpose.queue = r.queue.dropWhile isPurpose := rfl

theorem queue_seekSignatureIn_suffix (forms : List Form) :
    (r.seekSignatureIn inspect forms).queue <:+ forms.tail := by
  induction forms generalizing r with
  | nil => exact List.suffix_refl _
  | cons f rest ih =>
    unfold seekSignatureIn
    split
    · exact List.suffix_refl _
    · exact ih.trans (List.tail_suffix _)

theorem queue_readTestsIn_suffix (name : Text) (forms : List Form) :
    (r.readTestsIn inspect name forms).queue <:+ forms := by
  induction forms generalizing r with
  | nil => exact List.suffix_refl _
  | cons f rest ih =>
    unfold readTestsIn
    split
    · exact List.suffix_refl _
    · exact ih.trans (List.suffix_cons _ _)

theorem queue_readTests_suffix : (r.readTests inspect).queue <:+ r.queue := by
  unfold readTests
  split
  · exact List.suffix_refl _
  · exact queue_readTestsIn_suffix _ _ _

end Queue

/-- The phases that follow a signature. -/
def finishDesign (r : Review) : Review := (r.readPurpose.readTests inspect).judge

theorem queue_finishDesign_suffix (r : Review) : (r.finishDesign inspect).queue <:+ r.queue := by
  unfold finishDesign
  rw [queue_judge]
  exact (queue_readTests_suffix _).trans (List.dropWhile_suffix _)

theorem length_queue_seekSignature_lt {r : Review} (h : r.queue ≠ []) :
    (r.seekSignature inspect).queue.length < r.queue.length := by
  have hle := (queue_seekSignatureIn_suffix inspect (r := r) r.queue).length_le
  have hpos := List.length_pos_iff.2 h
  rw [List.length_tail] at hle
  rw [seekSignature]
  omega

/-- A signature and its design take at least one form. -/
theorem queue_finishDesign_lt {r : Review} (h : r.queue ≠ []) :
    ((r.seekSignature inspect).finishDesign inspect).queue.length < r.queue.length :=
  Nat.lt_of_le_of_lt (queue_finishDesign_suffix inspect _).length_le
    (length_queue_seekSignature_lt inspect h)

/-- Takes all forms. A design whose signature is the last form of all gets no verdict. -/
def complete (r : Review) : Review :=
  if h : r.queue = [] then r
  else
    let opened := r.seekSignature inspect
    if opened.queue = [] then opened
    else
      have := queue_finishDesign_lt inspect h
      complete (opened.finishDesign inspect)
termination_by r.queue.length

theorem complete_of_nil {r : Review} (h : r.queue = []) : r.complete inspect = r := by
  rw [complete, dif_pos h]

theorem complete_of_ne_nil {r : Review} (h : r.queue ≠ []) :
    r.complete inspect =
      if (r.seekSignature inspect).queue = [] then r.seekSignature inspect
      else ((r.seekSignature inspect).finishDesign inspect).complete inspect := by
  rw [complete, dif_neg h]

end Review

end DesignRecipe
