import DesignRecipe.Proofs.Recipe.Blockwise
import DesignRecipe.Proofs.Recipe.Inspection
import DesignRecipe.Proofs.Recipe.Signature

/-!
# Nested local forms

The helpers here are defined in `local` forms of which each stands in the helper of the one around
it, and only the innermost has no purpose statement. A `local` form in a helper is met in the body of
the function around the helper and once more when the helper is reviewed, so with every level there
are twice as many warnings.
-/
namespace DesignRecipe

theorem Form.calls_of_isComment {f : Form} (h : f.isComment = true) : f.calls = [] := by
  cases f with
  | atom kind text => rfl
  | list items => cases h

theorem Form.hasEllipsis_of_isComment {f : Form} (h : f.isComment = true) :
    f.hasEllipsis = false := by
  unfold isComment at h
  split at h
  · rfl
  · rfl
  · cases h

/-- Where no test is required, only the purpose statement can be missing. -/
theorem Design.shortcomings_zero (d : Design) :
    d.shortcomings 0 = if d.purposeLines = 0 then [.noPurpose] else [] := by
  have hnever : ¬(d.tests : Int) < 0 := by omega
  rw [shortcomings, if_neg hnever, List.append_nil]
  simp only [Nat.lt_one_iff]

namespace Nest

def signature : Form := .atom .lineComment "; h : A -> B".toList

def purpose : Form := .atom .lineComment "; purpose".toList

/-- `(define (h y) body)` -/
def helper (body : Form) : Form :=
  .list [.atom .identifier "define".toList,
    .list [.atom .identifier ['h'], .atom .identifier ['y']], body]

/-- The design of a helper, with some comments behind the signature. -/
def definitions (comments : List Form) (body : Form) : List Form :=
  signature :: (comments ++ [helper body])

/-- `(local [definitions] x)` -/
def around (comments : List Form) (body : Form) : Form :=
  .list [.atom .identifier "local".toList, .list (definitions comments body),
    .atom .identifier ['x']]

/-- A `local` form with `n` others inside, one in the other. -/
def nest : ℕ → Form
  | 0 => around [] (.atom .identifier ['y'])
  | n + 1 => around [purpose] (nest n)

example : (Reader.read "(local [; h : A -> B\n; purpose\n(define (h y)
    (local [; h : A -> B\n(define (h y) y)] x))] x)".toList).forms = [nest 1] := by cbv

theorem isComment_purpose : ∀ f ∈ [purpose], Form.isComment f = true := by
  simp [purpose, Form.isComment]

theorem name?_signature : Signature.name? signature = some ['h'] := by
  cbv

variable {comments : List Form} {body : Form}

/-! ### The helper as a definition -/

theorem hasEllipsis_helper (body : Form) : (helper body).hasEllipsis = body.hasEllipsis := by
  simp [helper, Form.hasEllipsis, anyEllipsis, Form.name?, isEllipsis, Text.isWordOf, Text.chomp]

theorem hasEllipsis_around (hcomments : ∀ f ∈ comments, Form.isComment f = true) :
    (around comments body).hasEllipsis = body.hasEllipsis := by
  have hdefinitions : anyEllipsis (comments ++ [helper body]) = body.hasEllipsis := by
    induction comments with
    | nil => simp [anyEllipsis, hasEllipsis_helper]
    | cons f comments ih =>
      obtain ⟨hf, hcomments⟩ := List.forall_mem_cons.1 hcomments
      rw [List.cons_append, anyEllipsis, Form.hasEllipsis_of_isComment hf, Bool.false_or,
        ih hcomments]
  simp [around, definitions, signature, hdefinitions, Form.hasEllipsis, anyEllipsis, Form.name?,
    isEllipsis, Text.isWordOf, Text.chomp]

theorem hasEllipsis_nest (n : ℕ) : (nest n).hasEllipsis = false := by
  induction n with
  | zero =>
    rw [nest, hasEllipsis_around (by simp)]
    rfl
  | succ n ih => rw [nest, hasEllipsis_around isComment_purpose, ih]

theorem ofForm?_helper (h : body.hasEllipsis = false) :
    Definition.ofForm? (helper body) = some ⟨['h'], [['y']], false, body⟩ := by
  rw [← h, ← hasEllipsis_helper]
  rfl

/-! ### Where local forms stand -/

/-- The definition and its header are calls as well, but not of `local`. -/
theorem localForms_helper (body : Form) :
    (helper body).calls.filterMap Call.localForms? = body.calls.filterMap Call.localForms? := by
  simp [helper, Call.ofItems?, Form.name?, Call.localForms?]

/-- The `local` forms inside a helper are met from around it, too. -/
theorem localForms_around (hcomments : ∀ f ∈ comments, Form.isComment f = true) (name : Text)
    (parameters : List Text) (isTemplate : Bool) (name' : Text) (parameters' : List Text)
    (isTemplate' : Bool) :
    Definition.localForms ⟨name, parameters, isTemplate, around comments body⟩ =
      definitions comments body :: Definition.localForms ⟨name', parameters', isTemplate', body⟩ := by
  have hnone : comments.flatMap Form.calls = [] :=
    List.flatMap_eq_nil_iff.2 fun f hf => Form.calls_of_isComment (hcomments f hf)
  have hhelper := localForms_helper body
  simp [Definition.localForms, around, definitions, signature, Call.ofItems?, Form.name?, hnone,
    hhelper, Call.localForms?]

/-! ### One level -/

/-- What is found in a helper. -/
def inside (body : Form) : List Warning := (Definition.inspect ⟨['h'], [['y']], false, body⟩).warnings

/-- The warning about a helper, seen from around it. -/
def missing : Warning := (Warning.ofComplaint .noPurpose).within (.design ['h'])

theorem memberWarnings_helper (h : body.hasEllipsis = false) :
    Review.memberWarnings Definition.inspect ['h'] (helper body) = inside body := by
  rw [Review.memberWarnings, ofForm?_helper h]
  rfl

theorem localWarnings_definitions (hcomments : ∀ f ∈ comments, Form.isComment f = true)
    (hbody : body.hasEllipsis = false) :
    (Review.ofProgram (definitions comments body) 0).localWarnings =
      (inside body).map (Warning.within (.design ['h'])) ++
        if comments = [] then [missing] else [] := by
  have hfits : Block.Fits ⟨['h'], signature, comments, [helper body]⟩ [] := by
    apply Block.fits_of_definition name?_signature _ (ofForm?_helper hbody)
    intro f hf
    rw [Review.isPurpose, hcomments f hf, Bool.true_or]
  have hpurpose : comments.countP Form.isComment = 0 ↔ comments = [] := by
    rw [List.countP_eq_length.2 hcomments, List.length_eq_zero_iff]
  have hsections := Review.sections_of_block hfits 0
  rw [Block.design, if_neg (by simp [Block.IsBare]), Block.draft, Design.judge,
    Design.shortcomings_zero, Block.purposeLines] at hsections
  simp only [hpurpose, List.flatMap_singleton, memberWarnings_helper hbody] at hsections
  change (Review.ofProgram (Block.forms ⟨['h'], signature, comments, [helper body]⟩) 0).localWarnings
    = _
  rw [Review.localWarnings, hsections]
  by_cases hnone : comments = []
  · simp [hnone, Section.warnings, Section.place, Design.warn, missing]
  · simp [hnone, Section.warnings, Section.place, Design.warn]

/-- What is found inside a helper counts twice in the function around it: once as found from around
the `local` form of the helper, and once as met there. -/
theorem warnings_around (hcomments : ∀ f ∈ comments, Form.isComment f = true)
    (hbody : body.hasEllipsis = false) (name : Text) (parameters : List Text) (isTemplate : Bool) :
    (Definition.inspect ⟨name, parameters, isTemplate, around comments body⟩).warnings =
      (inside body).map (Warning.within (.design ['h'])) ++
        (if comments = [] then [missing] else []) ++ inside body := by
  rw [Definition.warnings_inspect,
    localForms_around hcomments name parameters isTemplate ['h'] [['y']] false, List.flatMap_cons,
    localWarnings_definitions hcomments hbody, ← Definition.warnings_inspect, inside]

/-! ### All levels -/

theorem warnings_nest (n : ℕ) (name : Text) (parameters : List Text) (isTemplate : Bool) :
    (Definition.inspect ⟨name, parameters, isTemplate, nest n⟩).warnings =
      List.replicate (2 ^ n) missing := by
  induction n generalizing name parameters isTemplate with
  | zero =>
    have hinside : inside (.atom .identifier ['y']) = [] := rfl
    rw [nest, warnings_around (by simp) rfl, hinside]
    rfl
  | succ n ih =>
    have hinside : inside (nest n) = List.replicate (2 ^ n) missing := ih ['h'] [['y']] false
    -- both helpers have the same name, so the place of a warning stays what it is
    have hwithin : missing.within (.design ['h']) = missing := rfl
    rw [nest, warnings_around isComment_purpose (hasEllipsis_nest n), hinside, List.map_replicate,
      hwithin, if_neg (List.cons_ne_nil _ _), List.append_nil,
      List.replicate_append_replicate, pow_succ, Nat.mul_two]

/-- Of `n + 1` helpers inside each other only the innermost has no purpose statement, and this is
said `2 ^ n` times. -/
theorem texts_inspect_nest (n : ℕ) (name : Text) (parameters : List Text) (isTemplate : Bool) :
    (Definition.inspect ⟨name, parameters, isTemplate, nest n⟩).warnings.map Warning.text =
      List.replicate (2 ^ n) "within local def of h: no purpose statement".toList := by
  rw [warnings_nest, List.map_replicate]
  rfl

end Nest

end DesignRecipe
