import DesignRecipe.Proofs.Form.Calls
import DesignRecipe.Proofs.Form.RoundTrip
import DesignRecipe.Recipe.Signature

/-!
# Names in signatures

A signature is read as a list of forms, and the atoms in it are those that the tokens of the
comment spell. So the name of a signature is what a name in a program is: a run of characters that
belong to names.
-/
namespace DesignRecipe

namespace Token

variable {s : Text}

theorem Spelled.ne_nil {kind : AtomKind} (h : Spelled kind s) : s ≠ [] := by
  rintro rfl
  have hpos := (begins_of_front? h).pos
  exact Nat.lt_irrefl 0 hpos

theorem Spelled.isNameChar_of_identifier (h : Spelled .identifier s) :
    ∀ c ∈ s, isNameChar c = true := by
  have hbegins := begins_of_front? h
  generalize hlength : s.length = n, hkind : AtomKind.identifier = kind at hbegins
  cases hbegins with
  | name =>
    exact List.takeWhile_eq_self_iff.1 (takeWhile_eq_self_of_length hlength.symm)
  | _ => cases hkind

end Token

/-- An atom that stands in a text that was read to its end is spelled in this text. -/
theorem Reader.spelled_of_within {code : Text} {f : Form} {kind : AtomKind} {text : Text}
    (h : (Reader.read code).status = .complete) (hf : f ∈ (Reader.read code).forms)
    (hatom : Form.Within (.atom kind text) f) : Token.Spelled kind text := by
  apply Mark.allSpelled_stream code
  rw [← writeAll_forms_of_complete h]
  exact (Form.atom_mem_writeAll _).2 ⟨f, hf, .inr hatom⟩

namespace Signature

variable {comment name : Text} {items : List Form} {f : Form}

/-- The shape of a signature: a name, a colon, and two forms at least with one arrow on top level. -/
theorem ofItems?_eq_some_iff :
    ofItems? items = some name ↔
      ∃ rest, items = .atom .identifier name :: .atom .identifier colon :: rest ∧
        2 ≤ rest.length ∧ items.countP (·.isNamed arrow) = 1 ∧
        ¬(isTemplateName name = true ∧ items.any isPlaceholder = true) := by
  rw [List.countP_eq_length_filter]
  constructor
  · intro h
    unfold ofItems? at h
    split at h
    · next head separator rest =>
      obtain ⟨name', hname, hchecked⟩ := Option.bind_eq_some_iff.1 h
      split_ifs at hchecked with hchecks
      cases hchecked
      obtain rfl := Form.eq_atom_of_name? hname
      simp only [Bool.and_eq_true, decide_eq_true_eq, beq_iff_eq, Bool.not_eq_true',
        Bool.and_eq_false_iff, List.length_cons] at hchecks
      obtain ⟨⟨⟨hcolon, hlength⟩, harrow⟩, htemplate⟩ := hchecks
      obtain rfl := Form.eq_atom_of_name? (beq_iff_eq.1 hcolon)
      refine ⟨rest, rfl, by omega, harrow, ?_⟩
      rintro ⟨hname, hplaceholder⟩
      simp [hname, hplaceholder] at htemplate
    · cases h
  · rintro ⟨rest, rfl, hlength, harrow, htemplate⟩
    have hcolon : (Form.atom .identifier colon).isNamed colon = true := rfl
    rw [← Bool.and_eq_true, Bool.not_eq_true] at htemplate
    change (if _ then some name else none) = some name
    rw [if_pos]
    simp only [hcolon, harrow, htemplate, List.length_cons]
    simpa using hlength

theorem ofReading?_eq_some_iff {r : Reader} :
    ofReading? r = some name ↔
      r.status = .complete ∧
        ∃ items more, r.forms = .list items :: more ∧ ofItems? items = some name := by
  unfold ofReading?
  constructor
  · intro h
    split_ifs at h with hcomplete
    split at h
    · next items more hforms => exact ⟨hcomplete, items, more, hforms, h⟩
    · cases h
  · rintro ⟨hcomplete, items, more, hforms, hitems⟩
    rw [if_pos hcomplete, hforms]
    exact hitems

/-- A signature's text is read as a list, possibly with more behind it, in which the name stands. -/
theorem exists_list_of_ofComment? (h : ofComment? comment = some name) :
    (reading comment).status = .complete ∧
      ∃ items more, (reading comment).forms = .list items :: more ∧ ofItems? items = some name := by
  unfold ofComment? at h
  split_ifs at h
  exact ofReading?_eq_some_iff.1 h

theorem spelled_of_ofComment? (h : ofComment? comment = some name) :
    Token.Spelled .identifier name := by
  obtain ⟨hcomplete, items, more, hforms, hitems⟩ := exists_list_of_ofComment? h
  have hlist : .list items ∈ (reading comment).forms := by
    rw [hforms]
    exact List.mem_cons_self
  obtain ⟨rest, rfl, -⟩ := ofItems?_eq_some_iff.1 hitems
  exact Reader.spelled_of_within hcomplete hlist (.item List.mem_cons_self)

/-- Signatures give names that are not empty and have no blank in them. -/
theorem unblank_of_name? (h : Signature.name? f = some name) :
    name ≠ [] ∧ ∀ c ∈ name, Text.isBlank c = false := by
  unfold name? at h
  split at h
  · have hspelled := spelled_of_ofComment? h
    refine ⟨hspelled.ne_nil, ?_⟩
    intro c hc
    exact (Token.isNameChar_iff.1 (hspelled.isNameChar_of_identifier c hc)).2
  · cases h

/-- A short signature: a name, and one form on each side of the arrow. -/
theorem name?_short : Signature.name? (.atom .lineComment ";f:A -> B".toList) = some ['f'] := by
  cbv

end Signature

end DesignRecipe
