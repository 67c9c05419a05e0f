import DesignRecipe.Proofs.Recipe.Inspection

/-!
# Phases that may be refused

A ledger keeps all sections of a review in one list, whatever they are, and the last one is
current. On a ledger each phase asks for the design that it works on at the moment when it needs
it, and a fault ends the phase there and then, also a fault in the review of a `local` form. On
the ledger of a review the phases do what the steps of the review do.
-/
namespace DesignRecipe

namespace Section

def warn (ws : List Warning) : Section → Section
  | .opening before => .opening (before ++ ws)
  | .design d => .design (d.warn ws)

/-- Changes a design and leaves the opening alone. -/
def amend (change : Design → Design) : Section → Section
  | .opening ws => .opening ws
  | .design d => .design (change d)

end Section

/-- `past` has the sections in front of the current one, in order. -/
structure Ledger where
  queue : List Form
  threshold : Int
  past : List Section
  current : Section
  templates : List Definition

namespace Ledger

def ofForms (forms : List Form) (threshold : Int) : Ledger := ⟨forms, threshold, [], .opening [], []⟩

def sections (l : Ledger) : List Section := l.past ++ [l.current]

def groups (l : Ledger) : List Group :=
  (l.sections.filter fun s => !s.warnings.isEmpty).map Section.group

/-- The warnings of all sections, as seen from around the `local` form. -/
def localWarnings (l : Ledger) : List Warning :=
  l.sections.flatMap fun s => s.warnings.map (Warning.within s.place)

def withQueue (queue : List Form) (l : Ledger) : Ledger := { l with queue }

def remember (d : Definition) (l : Ledger) : Ledger := { l with templates := l.templates ++ [d] }

def warn (ws : List Warning) (l : Ledger) : Ledger := { l with current := l.current.warn ws }

def amend (change : Design → Design) (l : Ledger) : Ledger :=
  { l with current := l.current.amend change }

def openDesign (name : Text) (l : Ledger) : Ledger :=
  { l with past := l.past ++ [l.current], current := .design (.ofName name) }

end Ledger

/-- A phase changes a ledger as it goes on. What it has changed stays changed when a fault ends
it. -/
abbrev Phase := EStateM Review.Fault Ledger

namespace Phase

/-- What is found inside a definition, unless a fault turns up there. -/
abbrev Inquiry := Definition → Except Review.Fault (List Warning)

/-- The current design, which must be there. -/
def design : Phase Design := do
  match (← get).current with
  | .opening _ => throw .noDesign
  | .design d => return d

variable (ask : Inquiry)

/-- Inspects a definition, whose fault is a fault of the phase. -/
def inside (d : Definition) : Phase (List Warning) :=
  match ask d with
  | .ok ws => pure ws
  | .error fault => throw fault

def noteDefinition (owner : Option Text) (d : Definition) : Phase Unit :=
  if d.isTemplate then modify (·.remember d)
  else do
    modify (·.amend (if owner.isSome && d.isInteractive then .exempt else id))
    modify (·.warn (if owner = some d.name then [] else [.ofComplaint (.strayDefinition d.name)]))
    let found ← inside ask d
    modify (·.warn found)

def noteStray (f : Form) : Phase Unit :=
  match Definition.ofForm? f with
  | some d => noteDefinition ask none d
  | none => if f.isTest then modify (·.warn [.ofComplaint (.strayTest f)]) else pure ()

def noteMember (name : Text) (f : Form) : Phase Unit :=
  match Definition.ofForm? f with
  | some d => noteDefinition ask (some name) d
  | none =>
    match f.tested? with
    | none => pure ()
    | some actual => do
      modify (·.amend .countTest)
      modify (·.warn (if actual.callsFunction name then [] else [.ofComplaint (.idleTest name f)]))

/-- Takes forms through the first signature. -/
def seekSignatureIn : List Form → Phase Unit
  | [] => pure ()
  | f :: rest => do
    modify (·.withQueue rest)
    match Signature.name? f with
    | some name => modify (·.openDesign name)
    | none => do
      noteStray ask f
      seekSignatureIn rest

def seekSignature : Phase Unit := do
  seekSignatureIn ask (← get).queue

def readPurpose : Phase Unit := do
  let _ ← design
  let queue := (← get).queue
  modify (·.amend (.addPurposeLines ((queue.takeWhile Review.isPurpose).countP Form.isComment)))
  modify (·.withQueue (queue.dropWhile Review.isPurpose))

/-- Takes forms up to the next signature. -/
def readTestsIn (name : Text) : List Form → Phase Unit
  | [] => pure ()
  | f :: rest =>
    if (Signature.name? f).isSome then pure ()
    else do
      modify (·.withQueue rest)
      noteMember ask name f
      readTestsIn name rest

def readTests : Phase Unit := do
  let d ← design
  readTestsIn ask d.name (← get).queue

def judge : Phase Unit := do
  let _ ← design
  modify fun l => l.amend (.judge l.threshold)

/-- The phases that follow a signature. -/
def finishDesign : Phase Unit := do
  readPurpose
  readTests ask
  judge

/-- Takes forms through the first signature and, if there is more, the design that it opens. -/
def round : Phase Unit := do
  seekSignature ask
  if (← get).queue = [] then pure () else finishDesign ask

def rounds : ℕ → Phase Unit
  | 0 => pure ()
  | n + 1 => do
    if (← get).queue = [] then pure ()
    else do
      round ask
      rounds n

/-- Takes all forms. Every round takes one at least. -/
def complete : Phase Unit := do
  rounds ask (← get).queue.length

/-- Takes all forms and answers the sections that have warnings. -/
def review : Phase (List Group) := do
  complete ask
  return (← get).groups

/-- The warnings of a review of its own for the forms of a `local` form. -/
def localWarnings (forms : List Form) : Except Review.Fault (List Warning) :=
  match (complete ask).run (.ofForms forms 0) with
  | .ok _ l => .ok l.localWarnings
  | .error fault _ => .error fault

/-- One level of inspection, which leaves the definitions inside to another inspector. -/
def inspectWith (d : Definition) : Except Review.Fault (List Warning) :=
  List.flatten <$> d.localForms.mapM (localWarnings ask)

def inspectTo : ℕ → Inquiry
  | 0 => fun _ => .ok []
  | level + 1 => inspectWith (inspectTo level)

/-- Inspection of all `local` forms. -/
def inspect : Inquiry := fun d => inspectTo d.body.depth d

/-- The phase behind a step of a review. -/
def perform : Review.Step → Phase Unit
  | .seekSignature => seekSignature inspect
  | .readPurpose => readPurpose
  | .readTests => readTests inspect
  | .judge => judge
  | .complete => complete inspect
  | .enqueue forms => modify fun l => l.withQueue (l.queue ++ forms)

end Phase

/-! ### One phase after the other -/

namespace Phase

section sequence

variable {α β : Type} {p : Phase α} {l l' : Ledger}

theorem run_bind_of_ok {a : α} (h : p.run l = .ok a l') (next : α → Phase β) :
    (p >>= next).run l = (next a).run l' := by
  change EStateM.bind p next l = _
  rw [EStateM.bind, show p l = _ from h]
  rfl

theorem run_bind_of_error {fault : Review.Fault} (h : p.run l = .error fault l')
    (next : α → Phase β) : (p >>= next).run l = .error fault l' := by
  change EStateM.bind p next l = _
  rw [EStateM.bind, show p l = _ from h]

@[simp] theorem run_modify (change : Ledger → Ledger) (l : Ledger) :
    (modify change : Phase PUnit).run l = .ok ⟨⟩ (change l) := rfl

@[simp] theorem run_modify_bind (change : Ledger → Ledger) (next : PUnit → Phase β) (l : Ledger) :
    (modify change >>= next).run l = (next ⟨⟩).run (change l) := rfl

@[simp] theorem run_get_bind (next : Ledger → Phase β) (l : Ledger) :
    (get >>= next).run l = (next l).run l := rfl

end sequence

theorem run_inside {ask : Inquiry} {d : Definition} {ws : List Warning} (h : ask d = .ok ws)
    (l : Ledger) : (inside ask d).run l = .ok ws l := by
  rw [inside, h]
  rfl

end Phase

end DesignRecipe
