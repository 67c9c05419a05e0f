import DesignRecipe.Proofs.Recipe.SignatureText
import DesignRecipe.Recipe.Design

/-!
# Writing signatures

A name and some forms, none of which has a line comment in it, can be written as a comment that is
read again as these forms with a colon behind the name. So whether the comment is a signature is
decided by the forms alone.
-/
namespace DesignRecipe

open Token Lexeme

namespace Form

/-- The form stands in a text that is read to its end. -/
def IsRead (f : Form) : Prop :=
  ∃ code, (Reader.read code).status = .complete ∧
    ∃ g ∈ (Reader.read code).forms, g = f ∨ Within f g

variable {f : Form} {items : List Form}

theorem IsRead.allSpelled (h : f.IsRead) : Mark.AllSpelled f.write := by
  obtain ⟨code, hcomplete, g, hg, hfg⟩ := h
  intro kind text hatom
  apply Mark.allSpelled_stream code
  rw [← Reader.writeAll_forms_of_complete hcomplete, atom_mem_writeAll]
  rw [atom_mem_write] at hatom
  refine ⟨g, hg, ?_⟩
  rcases hfg with rfl | hfg
  · exact hatom
  · rcases hatom with rfl | hatom
    · exact .inr hfg
    · exact .inr (hatom.trans hfg)

theorem allSpelled_writeAll (h : ∀ f ∈ items, f.IsRead) : Mark.AllSpelled (writeAll items) := by
  intro kind text hatom
  rw [writeAll_eq_flatMap, List.mem_flatMap] at hatom
  obtain ⟨f, hf, hatom⟩ := hatom
  exact (h f hf).allSpelled kind text hatom

end Form

theorem Text.chomp_eq_self {s : Text} (h : '\n' ∉ s) : chomp s = s := by
  induction s with
  | nil => rfl
  | cons c s ih =>
    obtain ⟨hc, hs⟩ := not_or.1 (mt List.mem_cons.2 h)
    rw [chomp, ih hs]
    rintro rfl
    exact absurd rfl hc

theorem Token.Spelled.lineFeed_notMem {s : Text} (h : Spelled .identifier s) : '\n' ∉ s := by
  intro hmem
  have hname := h.isNameChar_of_identifier _ hmem
  revert hname
  decide

/-- An identifier does not begin as a comment does, and there is no blank in it. -/
theorem Token.Spelled.head_of_identifier {c : Char} {s : Text} (h : Spelled .identifier (c :: s)) :
    (c == ';' || c == ' ') = false := by
  have hblank : Text.isBlank c = false :=
    (isNameChar_iff.1 (h.isNameChar_of_identifier c List.mem_cons_self)).2
  have hbegins := begins_of_front? h
  generalize (c :: s).length = n, hkind : AtomKind.identifier = kind at hbegins
  cases hbegins with
  | name _ hsemi =>
    rw [Bool.or_eq_false_iff, beq_eq_false_iff_ne, beq_eq_false_iff_ne]
    refine ⟨hsemi, ?_⟩
    rintro rfl
    revert hblank
    decide
  | _ => cases hkind

namespace Signature

/-- A comment with a name, a colon and forms in it. -/
def write (name : Text) (rest : List Form) : Text :=
  "; ".toList ++ name ++ " : ".toList ++ [' '].intercalate (rest.map Form.render)

variable {name : Text} {rest : List Form}

/-! ### Reading what was written -/

theorem spelled_colon : Spelled .identifier colon := by
  have hmarks : (stream colon).map mark = [.atom .identifier colon] := by cbv
  apply Mark.allSpelled_stream colon
  rw [hmarks]
  exact List.mem_singleton_self _

theorem inner_write (hname : Spelled .identifier name) (hcolon : ':' ∉ name) :
    inner (write name rest) =
      name ++ "  :  ".toList ++ [' '].intercalate (rest.map Form.render) := by
  have hdrop : (write name rest).dropWhile (fun c => c == ';' || c == ' ') =
      name ++ [' '] ++ ':' :: ' ' :: [' '].intercalate (rest.map Form.render) := by
    cases name with
    | nil => exact absurd rfl hname.ne_nil
    | cons c name =>
      have hhead := hname.head_of_identifier
      simp [write, hhead]
  have hfront : ':' ∉ name ++ [' '] := by simp [hcolon]
  rw [inner, hdrop, Text.replaceFirst_append hfront]
  simp

theorem reading_write (hname : Spelled .identifier name) (hcolon : ':' ∉ name)
    (hspelled : Mark.AllSpelled (Form.writeAll rest))
    (hcomments : Mark.NoLineComment (Form.writeAll rest)) :
    (reading (write name rest)).status = .complete ∧
      (reading (write name rest)).forms =
        [.list (.atom .identifier name :: .atom .identifier colon :: rest)] := by
  have hstops (t : Text) : Text.Stops (continues .identifier) (' ' :: t) :=
    Text.stops_cons.2 (by decide)
  have hblank (t : Text) : (stream (' ' :: t)).map mark = (stream t).map mark :=
    map_mark_stream_blank (by decide) t
  have hrest : (stream ([' '].intercalate (rest.map Form.render) ++ [')'])).map mark =
      Form.writeAll rest ++ [.closer] :=
    (Form.map_mark_stream_renderAll_iff rest [] [] hspelled).2 ⟨hcomments, by simp⟩
  have htext : bracketed (write name rest) =
      '(' :: (name ++ ' ' :: ' ' :: (colon ++ ' ' :: ' ' ::
        ([' '].intercalate (rest.map Form.render) ++ [')']))) := by
    rw [bracketed_eq, inner_write hname hcolon]
    simp [colon]
  rw [reading, Reader.read_eq_forms_iff, htext, map_mark_stream_opener,
    map_mark_stream_atom hname (hstops _), hblank, hblank,
    map_mark_stream_atom spelled_colon (hstops _), hblank, hblank, hrest]
  simp [Form.writeAll, Form.write]

/-! ### Placeholders -/

theorem isPlaceholder_iff {v : Text} (h : Spelled .identifier v) :
    isPlaceholder (.atom .identifier v) = true ↔ ∀ c ∈ v, c = '?' := by
  have hne : v.isEmpty = false := by simpa using h.ne_nil
  simp [isPlaceholder, Form.name?, Text.isWordOf, Text.chomp_eq_self h.lineFeed_notMem, hne]

/-- Neither the name nor the colon of a template's signature is its placeholder. -/
theorem isTemplateName_and_any_isPlaceholder_iff (hname : Spelled .identifier name)
    (hspelled : Mark.AllSpelled (Form.writeAll rest)) :
    (isTemplateName name = true ∧
        (Form.atom .identifier name :: .atom .identifier colon :: rest).any isPlaceholder = true) ↔
      "-temp".toList <:+ name ∧ ∃ v, .atom .identifier v ∈ rest ∧ ∀ c ∈ v, c = '?' := by
  have hspelled' {v : Text} (hv : .atom .identifier v ∈ rest) : Spelled .identifier v :=
    hspelled _ _ ((Form.atom_mem_writeAll rest).2 ⟨_, hv, .inl rfl⟩)
  rw [isTemplateName, List.isSuffixOf_iff_suffix, List.any_eq_true]
  refine and_congr_right fun hsuffix => ?_
  constructor
  · rintro ⟨f, hf, hplaceholder⟩
    obtain ⟨v, hv⟩ : ∃ v, f.name? = some v := by
      rw [isPlaceholder, Option.any_eq_true] at hplaceholder
      obtain ⟨v, hv, -⟩ := hplaceholder
      exact ⟨v, hv⟩
    obtain rfl := Form.eq_atom_of_name? hv
    rcases List.mem_cons.1 hf with heq | hf
    · cases heq
      have hdash : '-' ∈ name := hsuffix.subset (by decide)
      exact absurd ((isPlaceholder_iff hname).1 hplaceholder _ hdash) (by decide)
    · rcases List.mem_cons.1 hf with heq | hf
      · cases heq
        exact absurd ((isPlaceholder_iff spelled_colon).1 hplaceholder ':' (by decide)) (by decide)
      · exact ⟨v, hf, (isPlaceholder_iff (hspelled' hf)).1 hplaceholder⟩
  · rintro ⟨v, hv, hmarks⟩
    exact ⟨_, by simp [hv], (isPlaceholder_iff (hspelled' hv)).2 hmarks⟩

/-! ### Recognition -/

theorem ofItems?_cons_iff {found : Text} :
    ofItems? (.atom .identifier name :: .atom .identifier colon :: rest) = some found ↔
      found = name ∧ 2 ≤ rest.length ∧
        (Form.atom .identifier name :: rest).countP (·.isNamed arrow) = 1 ∧
        ¬(isTemplateName name = true ∧
          (Form.atom .identifier name :: .atom .identifier colon :: rest).any isPlaceholder =
            true) := by
  have hcount : (Form.atom .identifier name :: .atom .identifier colon :: rest).countP
      (·.isNamed arrow) = (Form.atom .identifier name :: rest).countP (·.isNamed arrow) := by
    rw [List.countP_cons, List.countP_cons, List.countP_cons]
    rfl
  rw [ofItems?_eq_some_iff, hcount]
  constructor
  · rintro ⟨rest', heq, hchecks⟩
    simp only [List.cons.injEq, Form.atom.injEq, true_and] at heq
    obtain ⟨rfl, rfl⟩ := heq
    exact ⟨rfl, hchecks⟩
  · rintro ⟨rfl, hchecks⟩
    exact ⟨rest, rfl, hchecks⟩

theorem name?_of_reading {comment : Text} {items : List Form}
    (h : (reading comment).status = .complete ∧ (reading comment).forms = [.list items]) :
    name? (.atom .lineComment comment) = ofItems? items := by
  obtain ⟨hcomplete, hforms⟩ := h
  rw [name?, ofComment?_eq_ofReading?, ofReading?, if_pos hcomplete, hforms]

/-- A comment that was written with an identifier and some forms is a signature exactly if there are
two forms at least, and one arrow on top level, and no placeholder for a template. -/
theorem design_of_write_iff {code : Text}
    (hname : .atom .identifier name ∈ (stream code).map mark) (hcolon : ':' ∉ name)
    (hrest : ∀ f ∈ rest, f.IsRead)
    (hcomments : ∀ f ∈ rest, ∀ text,
      f ≠ .atom .lineComment text ∧ ¬Form.Within (.atom .lineComment text) f) (d : Design) :
    (name? (.atom .lineComment (write name rest))).map Design.ofName = some d ↔
      d = ⟨name, 0, 0, []⟩ ∧ 2 ≤ rest.length ∧
        (Form.atom .identifier name :: rest).countP (·.isNamed arrow) = 1 ∧
        ¬("-temp".toList <:+ name ∧ ∃ v, .atom .identifier v ∈ rest ∧ ∀ c ∈ v, c = '?') := by
  have hname' : Spelled .identifier name := Mark.allSpelled_stream code _ _ hname
  have hspelled := Form.allSpelled_writeAll hrest
  have hfree : Mark.NoLineComment (Form.writeAll rest) := by
    intro text htext
    obtain ⟨f, hf, hcomment⟩ := (Form.atom_mem_writeAll rest).1 htext
    obtain ⟨hne, hwithin⟩ := hcomments f hf text
    exact hcomment.elim hne hwithin
  rw [name?_of_reading (reading_write hname' hcolon hspelled hfree), Option.map_eq_some_iff,
    ← isTemplateName_and_any_isPlaceholder_iff hname' hspelled]
  constructor
  · rintro ⟨found, hfound, rfl⟩
    obtain ⟨rfl, hchecks⟩ := ofItems?_cons_iff.1 hfound
    exact ⟨rfl, hchecks⟩
  · rintro ⟨rfl, hchecks⟩
    exact ⟨name, ofItems?_cons_iff.2 ⟨rfl, hchecks⟩, rfl⟩

/-- The arrow and the colon inside the first form do not count. The second name is a template's. -/
theorem design_of_write_iff_of_string :
    (name? (.atom .lineComment
      (write ['f'] (Reader.read "(a -> \":)\") -> B".toList).forms))).map Design.ofName =
        some ⟨['f'], 0, 0, []⟩ ∧
      (name? (.atom .lineComment
        (write "f-temp".toList (Reader.read "A -> ??".toList).forms))).map Design.ofName = none := by
  have hread : (Reader.read "(a -> \":)\") -> B".toList).status = .complete := by cbv
  have hread' : (Reader.read "A -> ??".toList).status = .complete := by cbv
  have hforms : (Reader.read "(a -> \":)\") -> B".toList).forms =
      [.list [.atom .identifier ['a'], .atom .identifier arrow, .atom .string "\":)\"".toList],
        .atom .identifier arrow, .atom .identifier ['B']] := by cbv
  have hforms' : (Reader.read "A -> ??".toList).forms =
      [.atom .identifier ['A'], .atom .identifier arrow, .atom .identifier ['?', '?']] := by cbv
  have hname : .atom .identifier ['f'] ∈ (stream ['f']).map mark := by
    have hmarks : (stream ['f']).map mark = [.atom .identifier ['f']] := by cbv
    rw [hmarks]
    exact List.mem_singleton_self _
  have hname' : .atom .identifier "f-temp".toList ∈ (stream "f-temp".toList).map mark := by
    have hmarks : (stream "f-temp".toList).map mark = [.atom .identifier "f-temp".toList] := by cbv
    rw [hmarks]
    exact List.mem_singleton_self _
  constructor
  · refine (design_of_write_iff hname (by decide) (fun f hf => ⟨_, hread, f, hf, .inl rfl⟩) ?_ _).2
      ⟨rfl, ?_⟩
    · rw [hforms]
      simp [Form.within_list_iff]
    · rw [hforms]
      refine ⟨by decide, by decide, ?_⟩
      rintro ⟨hsuffix, -⟩
      revert hsuffix
      decide
  · rw [Option.eq_none_iff_forall_ne_some]
    intro d hd
    obtain ⟨-, -, -, htemplate⟩ := (design_of_write_iff hname' (by decide)
      (fun f hf => ⟨_, hread', f, hf, .inl rfl⟩) (by rw [hforms']; simp) d).1 hd
    apply htemplate
    rw [hforms']
    exact ⟨by decide, ['?', '?'], by simp, by simp⟩

end Signature

end DesignRecipe
