import DesignRecipe.Proofs.Form.Bracketed
import DesignRecipe.Proofs.Recipe.Signature
import DesignRecipe.Proofs.Text.Occurrence

/-!
# The text of a signature

The text of a comment is put in brackets to be read as one list. A signature is read to its end, but
what follows the list is not looked at: if the text itself closes the bracket in front of it, there
is more than the list.

The colon and the arrow of a signature are tokens of the text in brackets. Putting blanks around the
first colon makes neither of them, so both stand in the comment already.
-/
namespace DesignRecipe

/-- A token is a part of the text that it was cut from. -/
theorem Token.text_infix_of_mem_stream {code : Text} {x : Lexeme} (h : x ∈ stream code) :
    x.text <:+: code := by
  fun_induction stream code with
  | case1 => simp at h
  | case2 code t ht ih =>
    rcases List.mem_cons.1 h with rfl | h
    · exact (List.take_prefix _ _).isInfix.trans (List.drop_suffix _ _).isInfix
    · exact (ih h).trans (List.drop_suffix _ _).isInfix

/-- The text of an atom is a part of a text that was read to its end. -/
theorem Reader.text_infix_of_within {code : Text} {f : Form} {kind : AtomKind} {text : Text}
    (h : (Reader.read code).status = .complete) (hf : f ∈ (Reader.read code).forms)
    (hatom : Form.Within (.atom kind text) f) : text <:+: code := by
  have hmark : .atom kind text ∈ Form.writeAll (Reader.read code).forms :=
    (Form.atom_mem_writeAll _).2 ⟨f, hf, .inr hatom⟩
  rw [writeAll_forms_of_complete h] at hmark
  obtain ⟨x, hx, hmark⟩ := List.mem_map.1 hmark
  obtain ⟨-, rfl⟩ := Lexeme.mark_eq_atom_iff.1 hmark
  exact Token.text_infix_of_mem_stream hx

namespace Signature

/-- What is put in brackets. -/
def inner (comment : Text) : Text :=
  Text.replaceFirst ':' [' ', ':', ' '] (comment.dropWhile fun c => c == ';' || c == ' ')

theorem bracketed_eq (comment : Text) : bracketed comment = '(' :: inner comment ++ [')'] := rfl

variable {comment name : Text}

/-! ### Nothing behind the list -/

theorem inner_cases (h : (reading comment).status = .complete) :
    (Reader.read (inner comment)).status = .complete ∧
        (reading comment).forms = [.list (Reader.read (inner comment)).forms] ∨
      (Reader.read (inner comment)).status = .strayCloser ∧ ∀ f, (reading comment).forms ≠ [f] :=
  Reader.bracketed_cases h

/-- A signature is read as one form exactly if its text closes no list that it does not open, and
the form is the list of the forms of the text then. -/
theorem one_form_iff_inner_complete (h : name? (.atom .lineComment comment) = some name) :
    (reading comment).status = .complete ∧
      ((∃ f, (reading comment).forms = [f]) ↔ (Reader.read (inner comment)).status = .complete) ∧
      ((Reader.read (inner comment)).status = .complete →
        (reading comment).forms = [.list (Reader.read (inner comment)).forms]) ∧
      ((Reader.read (inner comment)).status ≠ .complete →
        (Reader.read (inner comment)).status = .strayCloser) := by
  have hcomplete : (reading comment).status = .complete := (exists_list_of_ofComment? h).1
  refine ⟨hcomplete, ?_⟩
  rcases inner_cases hcomplete with ⟨hinner, hforms⟩ | ⟨hinner, hmore⟩
  · simp [hinner, hforms]
  · simp [hinner, hmore]

/-- The text of the second signature closes the bracket in front of it. -/
theorem one_form_iff_inner_complete_of_stray :
    name? (.atom .lineComment ";f:A -> B".toList) = some ['f'] ∧
      (reading ";f:A -> B".toList).forms =
        [.list (Reader.read (inner ";f:A -> B".toList)).forms] ∧
      name? (.atom .lineComment ";f:A -> B) (g".toList) = some ['f'] ∧
      (reading ";f:A -> B) (g".toList).status = .complete ∧
      ¬∃ f, (reading ";f:A -> B) (g".toList).forms = [f] := by
  have hshort := name?_short
  have hlong : name? (.atom .lineComment ";f:A -> B) (g".toList) = some ['f'] := by cbv
  have hinner : (Reader.read (inner ";f:A -> B".toList)).status = .complete := by cbv
  have hstray : (Reader.read (inner ";f:A -> B) (g".toList)).status = .strayCloser := by cbv
  obtain ⟨-, -, hforms, -⟩ := one_form_iff_inner_complete hshort
  obtain ⟨hcomplete, hone, -, -⟩ := one_form_iff_inner_complete hlong
  refine ⟨hshort, hforms hinner, hlong, hcomplete, ?_⟩
  rw [hone, hstray]
  decide

/-- There are signatures that are more than one form. -/
theorem exists_signature_of_two_forms :
    ¬∀ comment name, name? (.atom .lineComment comment) = some name →
      (reading comment).status = .complete ∧ ∃ f, (reading comment).forms = [f] := by
  intro h
  have hname : name? (.atom .lineComment ";f:A -> B) (g".toList) = some ['f'] := by cbv
  have hlength : (reading ";f:A -> B) (g".toList).forms.length = 2 := by cbv
  obtain ⟨-, f, hf⟩ := h _ _ hname
  rw [hf] at hlength
  cases hlength

/-! ### The marks of a signature -/

theorem infix_inner_of_infix_bracketed {part : Text} (hopener : '(' ∉ part) (hcloser : ')' ∉ part)
    (h : part <:+: bracketed comment) : part <:+: inner comment := by
  rw [bracketed_eq] at h
  rcases List.infix_concat_iff.1 h with hlast | hinside
  · rcases List.suffix_concat_iff.1 hlast with rfl | ⟨front, rfl, -⟩
    · exact List.nil_infix
    · simp at hcloser
  · cases part with
    | nil => exact List.nil_infix
    | cons c part =>
      have hne : c ≠ '(' := by
        rintro rfl
        exact hopener List.mem_cons_self
      exact Text.infix_of_infix_cons hinside hne

theorem colon_infix_of_infix_inner (h : colon <:+: inner comment) : colon <:+: comment := by
  rw [colon, List.singleton_infix_iff] at h ⊢
  by_contra hnone
  have hdropped : ':' ∉ comment.dropWhile fun c => c == ';' || c == ' ' :=
    fun hmem => hnone ((List.dropWhile_suffix _).subset hmem)
  rw [inner, Text.replaceFirst_of_notMem hdropped] at h
  exact hdropped h

theorem arrow_infix_of_infix_inner (h : arrow <:+: inner comment) : arrow <:+: comment := by
  have hdropped := Text.infix_of_infix_replaceFirst (by simp) (by simp [arrow]) h
  exact hdropped.trans (List.dropWhile_suffix _).isInfix

/-- What is read as a signature has a colon and an arrow in it. -/
theorem isCandidate_of_ofReading? (h : ofReading? (reading comment) = some name) :
    isCandidate comment = true := by
  obtain ⟨hcomplete, items, more, hforms, hitems⟩ := ofReading?_eq_some_iff.1 h
  have hlist : .list items ∈ (reading comment).forms := by
    rw [hforms]
    exact List.mem_cons_self
  have hpart {text : Text} (hatom : .atom .identifier text ∈ items) : text <:+: bracketed comment :=
    Reader.text_infix_of_within hcomplete hlist (.item hatom)
  obtain ⟨rest, hrest, -, harrow, -⟩ := ofItems?_eq_some_iff.1 hitems
  have hcolon : .atom .identifier colon ∈ items := by simp [hrest]
  obtain ⟨f, hf, hnamed⟩ := List.countP_pos_iff.1 (Nat.lt_of_lt_of_eq Nat.zero_lt_one harrow.symm)
  rw [Form.eq_atom_of_name? (beq_iff_eq.1 hnamed)] at hf
  rw [isCandidate, Bool.and_eq_true, Text.occurs_iff_infix, Text.occurs_iff_infix]
  constructor
  · exact colon_infix_of_infix_inner
      (infix_inner_of_infix_bracketed (by decide) (by decide) (hpart hcolon))
  · exact arrow_infix_of_infix_inner
      (infix_inner_of_infix_bracketed (by decide) (by decide) (hpart hf))

theorem ofComment?_eq_ofReading? (comment : Text) :
    ofComment? comment = ofReading? (reading comment) := by
  rw [ofComment?]
  split_ifs with hcandidate
  · rfl
  · cases hfound : ofReading? (reading comment) with
    | none => rfl
    | some found => exact absurd (isCandidate_of_ofReading? hfound) hcandidate

/-- Looking for the marks of a signature saves the reading of other comments and decides nothing:
what is read as a signature has both marks. -/
theorem reading_decides_signature (comment : Text) :
    name? (.atom .lineComment comment) = ofReading? (reading comment) ∧
      ∀ name, ofReading? (reading comment) = some name →
        ':' ∈ comment ∧ ['-', '>'] <:+: comment := by
  refine ⟨ofComment?_eq_ofReading? comment, ?_⟩
  intro name h
  have hcandidate := isCandidate_of_ofReading? h
  rw [isCandidate, Bool.and_eq_true, Text.occurs_iff_infix, Text.occurs_iff_infix, colon,
    List.singleton_infix_iff] at hcandidate
  exact hcandidate

/-- A signature with marks in its forms as well, and a comment whose only colon is in a string. -/
theorem reading_decides_signature_of_string :
    ofReading? (reading ";f:\"->\" -> (: ->)".toList) = some ['f'] ∧
      (':' ∈ ";f:\"->\" -> (: ->)".toList ∧ ['-', '>'] <:+: ";f:\"->\" -> (: ->)".toList) ∧
      name? (.atom .lineComment ";f \":\" -> B".toList) = none := by
  have hread : ofReading? (reading ";f:\"->\" -> (: ->)".toList) = some ['f'] := by cbv
  have hother : ofReading? (reading ";f \":\" -> B".toList) = none := by cbv
  refine ⟨hread, (reading_decides_signature _).2 _ hread, ?_⟩
  rw [(reading_decides_signature _).1, hother]

end Signature

end DesignRecipe
