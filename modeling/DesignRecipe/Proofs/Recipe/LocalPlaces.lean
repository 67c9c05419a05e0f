import DesignRecipe.Proofs.Recipe.Verdict

/-!
# Places of local warnings

A warning from a `local` form names the outermost place only. Its text is what one gets from the
text of the warning inside by taking off the place in front of it, if there is one, and setting the
new place in front. This goes well because the functions that places name have no blanks in their
names, so that a place ends where its text says, and because no complaint reads like a place.
-/
namespace DesignRecipe

/-! ### Places in texts -/

namespace Text

variable {text front rest back : Text}

theorem dropPrefix?_iff : text.dropPrefix? front = some rest ↔ text = front ++ rest := by
  rw [List.dropPrefix?_eq_some_iff]
  simp

theorem dropSuffix?_iff : text.dropSuffix? back = some rest ↔ text = rest ++ back := by
  rw [List.dropSuffix?_eq_some_iff]
  simp

end Text

namespace LocalPlace

/-- A place that names a function does so by a name that can stand in a program. -/
def Proper : LocalPlace → Prop
  | .opening => True
  | .design name => name ≠ [] ∧ ∀ c ∈ name, Text.isBlank c = false

/-- What follows `within local: ` at the front of a text. -/
def behindOpening? (text : Text) : Option Text := text.dropPrefix? "within local: ".toList

/-- What follows `within local def of X: ` at the front of a text. The word behind `of` reaches up
to a blank, and all of it but the colon at its end is the name. -/
def behindDesign? (text : Text) : Option Text := do
  let rest ← text.dropPrefix? "within local def of ".toList
  let name ← (rest.takeWhile (!Text.isBlank ·)).dropSuffix? [':']
  if name = [] then none else (rest.dropWhile (!Text.isBlank ·)).dropPrefix? [' ']

/-- The text without the place at its front, if one stands there. -/
def dropFrom (text : Text) : Text := ((behindOpening? text).or (behindDesign? text)).getD text

variable {text rest name : Text}

theorem behindOpening?_eq_some_iff :
    behindOpening? text = some rest ↔ text = LocalPlace.opening.text ++ rest :=
  Text.dropPrefix?_iff

theorem behindDesign?_append (hproper : (LocalPlace.design name).Proper) (rest : Text) :
    behindDesign? ((LocalPlace.design name).text ++ rest) = some rest := by
  have hword : ∀ c ∈ name ++ [':'], (!Text.isBlank c) = true := by
    intro c hc
    rcases List.mem_append.1 hc with hc | hc
    · simp [hproper.2 c hc]
    · rw [List.mem_singleton.1 hc]
      decide
  have hblank : ∀ c, (' ' :: rest).head? = some c → (!Text.isBlank c) = false := by
    rintro c ⟨⟩
    decide
  have hfront : ((LocalPlace.design name).text ++ rest).dropPrefix? "within local def of ".toList =
      some ((name ++ [':']) ++ ' ' :: rest) := by
    rw [Text.dropPrefix?_iff, text_design]
    simp
  have hcolon : (name ++ [':']).dropSuffix? [':'] = some name := Text.dropSuffix?_iff.2 rfl
  have hbehind : (' ' :: rest).dropPrefix? [' '] = some rest := Text.dropPrefix?_iff.2 rfl
  simp only [behindDesign?, hfront, Option.bind_eq_bind, Option.bind_some]
  rw [takeWhile_append_of_boundary hword hblank, dropWhile_append_of_boundary hword hblank, hcolon,
    Option.bind_some, if_neg hproper.1, hbehind]

theorem exists_name_of_behindDesign? (h : behindDesign? text = some rest) :
    ∃ name, (LocalPlace.design name).Proper ∧ text = (LocalPlace.design name).text ++ rest := by
  obtain ⟨inside, hinside, h⟩ := Option.bind_eq_some_iff.1 h
  obtain ⟨name, hname, h⟩ := Option.bind_eq_some_iff.1 h
  split_ifs at h with hne
  have hword := Text.dropSuffix?_iff.1 hname
  have hbehind := Text.dropPrefix?_iff.1 h
  refine ⟨name, ⟨hne, ?_⟩, ?_⟩
  · intro c hc
    have hmem : c ∈ inside.takeWhile (!Text.isBlank ·) := by
      rw [hword]
      exact List.mem_append_left _ hc
    simpa using List.mem_takeWhile_imp hmem
  · have hsplit : inside = (name ++ [':']) ++ ([' '] ++ rest) := by
      rw [← hword, ← hbehind, List.takeWhile_append_dropWhile]
    rw [Text.dropPrefix?_iff.1 hinside, hsplit, text_design]
    simp

theorem design_text_ne_opening_text (name rest more : Text) :
    (LocalPlace.design name).text ++ rest ≠ LocalPlace.opening.text ++ more := by
  intro h
  cases h

theorem dropFrom_append {place : LocalPlace} (hproper : place.Proper) (rest : Text) :
    dropFrom (place.text ++ rest) = rest := by
  cases place with
  | opening => rw [dropFrom, behindOpening?_eq_some_iff.2 rfl, Option.some_or, Option.getD_some]
  | design name =>
    have hopening : behindOpening? ((LocalPlace.design name).text ++ rest) = none := by
      rw [Option.eq_none_iff_forall_ne_some]
      intro more hmore
      exact design_text_ne_opening_text name rest more (behindOpening?_eq_some_iff.1 hmore)
    rw [dropFrom, hopening, behindDesign?_append hproper, Option.none_or, Option.getD_some]

/-- Where no place stands in front nothing is taken off. -/
theorem dropFrom_eq_self (h : ∀ place : LocalPlace, ¬place.text <+: text) :
    dropFrom text = text := by
  have hopening : behindOpening? text = none := by
    rw [Option.eq_none_iff_forall_ne_some]
    intro rest hrest
    exact h .opening ⟨rest, (behindOpening?_eq_some_iff.1 hrest).symm⟩
  have hdesign : behindDesign? text = none := by
    rw [Option.eq_none_iff_forall_ne_some]
    intro rest hrest
    obtain ⟨name, -, htext⟩ := exists_name_of_behindDesign? hrest
    exact h (.design name) ⟨rest, htext.symm⟩
  rw [dropFrom, hopening, hdesign, Option.none_or, Option.getD_none]

end LocalPlace

/-! ### Complaints in texts -/

namespace Complaint

/-- The text reads like a complaint other than one about the number of tests. -/
def IsBase (text : Text) : Prop :=
  text = "no purpose statement".toList ∨ "unexpected function definition for ".toList <+: text ∨
    "unexpected test: ".toList <+: text ∨ "expected test to call ".toList <+: text

variable {c : Complaint}

theorem isBase_text (h : ∀ n, c ≠ .fewTests n) : IsBase c.text := by
  cases c with
  | noPurpose => exact .inl rfl
  | fewTests n => exact absurd rfl (h n)
  | strayDefinition name => exact .inr (.inl (List.prefix_append _ name))
  | strayTest test => exact .inr (.inr (.inl (List.prefix_append _ test.render)))
  | idleTest name test =>
    have hname := List.prefix_append "expected test to call ".toList name
    have hcolon := List.prefix_append ("expected test to call ".toList ++ name) ": ".toList
    exact .inr (.inr (.inr ((hname.trans hcolon).trans (List.prefix_append _ test.render))))

theorem text_ne_fewTests (h : ∀ n, c ≠ .fewTests n) (n : Nat) :
    c.text ≠ (Complaint.fewTests n).text := by
  intro heq
  have hhead : c.text.head? = some 'o' := by
    rw [heq]
    rfl
  cases c with
  | fewTests m => exact h m rfl
  | _ => cases hhead

/-- No complaint reads like a place. -/
theorem not_place_prefix_text (c : Complaint) (place : LocalPlace) : ¬place.text <+: c.text := by
  rintro ⟨rest, htext⟩
  have hhead : c.text.head? = some 'w' := by
    rw [← htext, List.head?_append, place.head?_text]
    rfl
  cases c <;> cases hhead

end Complaint

/-! ### Warnings with one place at most -/

/-- A warning of a review that requires no tests. -/
structure Warning.Orderly (w : Warning) : Prop where
  proper : ∀ place, w.place = some place → place.Proper
  complaint : ∀ n, w.complaint ≠ .fewTests n

theorem Warning.orderly_ofComplaint {c : Complaint} (h : ∀ n, c ≠ .fewTests n) :
    (ofComplaint c).Orderly :=
  ⟨nofun, h⟩

theorem Warning.dropFrom_text {w : Warning} (h : w.Orderly) :
    LocalPlace.dropFrom w.text = w.complaint.text := by
  obtain ⟨place, c⟩ := w
  cases place with
  | none => exact LocalPlace.dropFrom_eq_self c.not_place_prefix_text
  | some place => exact LocalPlace.dropFrom_append (h.proper place rfl) c.text

theorem Block.Fits.proper_place {b : Block} {rest : List Form} (h : b.Fits rest) :
    (LocalPlace.design b.name).Proper :=
  Signature.unblank_of_name? h.signature

namespace Review

variable {inspect : Inspector} {forms : List Form} {threshold : Int} {s : Section}

theorem proper_place_of_mem_sections
    (hs : s ∈ ((ofForms forms threshold).complete inspect).sections) : s.place.Proper := by
  obtain ⟨parts⟩ : Nonempty (Segmentation forms) := inferInstance
  rw [sections_complete inspect parts] at hs
  rcases List.mem_cons.1 hs with rfl | hs
  · trivial
  · obtain ⟨d, hd, rfl⟩ := List.mem_map.1 hs
    obtain ⟨b, hb, rfl⟩ := List.mem_map.1 hd
    obtain ⟨rest, hfits⟩ := parts.chained.exists_fits hb
    rw [Block.design]
    split_ifs <;> exact hfits.proper_place

/-- What is said in a section is said about a form of the program, or it belongs to a verdict. -/
theorem forall_mem_warnings {P : Warning → Prop}
    (hstray : ∀ f ∈ forms, ∀ w ∈ strayWarnings inspect f, P w)
    (hmember : ∀ f ∈ forms, ∀ name, (LocalPlace.design name).Proper →
      ∀ w ∈ memberWarnings inspect name f, P w)
    (hverdict : ∀ d : Design, ∀ c ∈ d.shortcomings threshold, P (.ofComplaint c))
    (hs : s ∈ ((ofForms forms threshold).complete inspect).sections) :
    ∀ w ∈ s.warnings, P w := by
  obtain ⟨parts⟩ : Nonempty (Segmentation forms) := inferInstance
  rw [sections_complete inspect parts] at hs
  rcases List.mem_cons.1 hs with rfl | hs
  · intro w hw
    obtain ⟨f, hf, hw⟩ := List.mem_flatMap.1 hw
    exact hstray f (parts.mem_of_mem_opening hf) w hw
  · obtain ⟨d, hd, rfl⟩ := List.mem_map.1 hs
    obtain ⟨b, hb, rfl⟩ := List.mem_map.1 hd
    obtain ⟨rest, hfits⟩ := parts.chained.exists_fits hb
    have hdraft : ∀ w ∈ (b.draft inspect).warnings, P w := by
      intro w hw
      obtain ⟨f, hf, hw⟩ := List.mem_flatMap.1 hw
      exact hmember f (parts.mem_of_mem_body hb hf) b.name hfits.proper_place w hw
    rw [Block.design]
    split_ifs
    · exact hdraft
    · intro w hw
      rcases List.mem_append.1 hw with hw | hw
      · exact hdraft w hw
      · obtain ⟨c, hc, rfl⟩ := List.mem_map.1 hw
        exact hverdict _ c hc

/-- If what is found inside definitions is in order, so is what a review without required tests
finds. -/
theorem orderly_of_mem_sections (hinside : ∀ e, ∀ w ∈ (inspect e).warnings, w.Orderly)
    (hs : s ∈ ((ofForms forms 0).complete inspect).sections) : ∀ w ∈ s.warnings, w.Orderly := by
  have hdefinition : ∀ name, (Warning.ofComplaint (.strayDefinition name)).Orderly := by
    intro name
    apply Warning.orderly_ofComplaint
    rintro n ⟨⟩
  refine forall_mem_warnings ?_ ?_ ?_ hs
  · intro f _
    refine forall_mem_strayWarnings (fun e _ => hdefinition e.name) ?_ (fun e _ => hinside e)
    apply Warning.orderly_ofComplaint
    rintro n ⟨⟩
  · intro f _ name _
    refine forall_mem_memberWarnings (fun e _ => hdefinition e.name) ?_ (fun e _ => hinside e)
    apply Warning.orderly_ofComplaint
    rintro n ⟨⟩
  · intro d c hc
    apply Warning.orderly_ofComplaint
    rcases Design.mem_shortcomings_iff.1 hc with ⟨rfl, -⟩ | ⟨-, hfew⟩
    · rintro n ⟨⟩
    · -- no number of tests is below zero
      omega

end Review

namespace Definition

theorem orderly_of_mem_inspectTo (level : Nat) :
    ∀ d, ∀ w ∈ (inspectTo level d).warnings, w.Orderly := by
  induction level with
  | zero => exact fun _ _ => nofun
  | succ level ih =>
    intro d w hw
    obtain ⟨forms, -, s, hs, v, hv, rfl⟩ := exists_within_of_mem_inspectWith hw
    refine ⟨?_, (Review.orderly_of_mem_sections ih hs v hv).complaint⟩
    rintro place ⟨⟩
    exact Review.proper_place_of_mem_sections hs

theorem orderly_of_mem_inspect (d : Definition) : ∀ w ∈ d.inspect.warnings, w.Orderly :=
  orderly_of_mem_inspectTo d.body.depth d

/-- Warnings about the inside of a definition come about by taking off the place in front and
setting the new one in front, and they have one place however deep they come from. -/
theorem inspect_names_one_place (d : Definition) :
    d.inspect.warnings.map Warning.text =
        (d.localForms.flatMap fun forms => (Review.ofProgram forms 0).sections.flatMap fun s =>
          s.warnings.map fun w => s.place.text ++ LocalPlace.dropFrom w.text) ∧
      ∀ text ∈ d.inspect.warnings.map Warning.text, ∃ (place : LocalPlace) (base : Text),
        text = place.text ++ base ∧ place.Proper ∧ Complaint.IsBase base ∧
          (∀ other : LocalPlace, ¬other.text <+: base) ∧
          ∀ n, base ≠ (Complaint.fewTests n).text := by
  constructor
  · rw [warnings_inspect, List.map_flatMap]
    apply List.flatMap_congr
    intro forms _
    rw [Review.localWarnings, List.map_flatMap]
    apply List.flatMap_congr
    intro s hs
    rw [List.map_map]
    apply List.map_congr_left
    intro w hw
    have horderly := Review.orderly_of_mem_sections orderly_of_mem_inspect hs w hw
    rw [Function.comp_apply, Warning.text_within, Warning.dropFrom_text horderly]
  · intro text htext
    obtain ⟨w, hw, rfl⟩ := List.mem_map.1 htext
    have hcomplaint := (orderly_of_mem_inspect d w hw).complaint
    obtain ⟨forms, -, s, hs, v, -, rfl⟩ := exists_within_of_mem_inspect hw
    have hproper := Review.proper_place_of_mem_sections hs
    exact ⟨s.place, v.complaint.text, v.text_within s.place, hproper,
      Complaint.isBase_text hcomplaint, v.complaint.not_place_prefix_text,
      Complaint.text_ne_fewTests hcomplaint⟩

/-- Around a `local` form in a `local` form the inner place gives way to the outer one. -/
theorem inspect_names_one_place_of_nested :
    let inner : Form := .list [.atom .identifier "local".toList,
      .list [.atom .lineComment ";f:A -> B".toList, .atom .string "\"\"".toList], .list []]
    let define : Form := .list [.atom .identifier "define".toList,
      .list [.atom .identifier ['g']], inner]
    let d : Definition := ⟨['h'], [], false,
      .list [.atom .identifier "local".toList, .list [define], .list []]⟩
    d.inspect.warnings.map Warning.text =
        ["within local: unexpected function definition for g".toList,
          "within local: no purpose statement".toList,
          "within local def of f: no purpose statement".toList] ∧
      ∃ (place : LocalPlace) (base : Text),
        "within local def of f: no purpose statement".toList = place.text ++ base ∧
          place.Proper ∧ Complaint.IsBase base := by
  intro inner define d
  have hsignature := Signature.name?_short
  generalize hcomment : Form.atom .lineComment ";f:A -> B".toList = signature at hsignature
  have hinner : (Review.ofProgram [signature, .atom .string "\"\"".toList] 0).sections =
      [.opening [], .design ⟨['f'], 0, 0, [.ofComplaint .noPurpose]⟩] :=
    Review.sections_of_block (Block.fits_of_string hsignature "\"\"".toList (by simp)) 0
  have hlocals : d.localForms = [[define], [signature, .atom .string "\"\"".toList]] := by
    rw [← hcomment]
    rfl
  let e : Definition := ⟨['g'], [], false, inner⟩
  have hdefine : ofForm? define = some e := rfl
  have hlocals' : e.localForms = [[signature, .atom .string "\"\"".toList]] := by
    rw [← hcomment]
    rfl
  have hunsigned : ∀ f ∈ [define], Signature.name? f = none := by simp [define, Signature.name?]
  have houter : (Review.ofProgram [define] 0).sections =
      [.opening [.ofComplaint (.strayDefinition ['g']),
        ⟨some (.design ['f']), .noPurpose⟩]] := by
    have hstray : Review.strayWarnings Definition.inspect define =
        .ofComplaint (.strayDefinition ['g']) :: e.inspect.warnings := by
      rw [Review.strayWarnings, hdefine]
      rfl
    have he : e.inspect.warnings = [⟨some (.design ['f']), .noPurpose⟩] := by
      rw [warnings_inspect, hlocals', List.flatMap_singleton, Review.localWarnings, hinner]
      rfl
    rw [Review.sections_of_unsigned hunsigned, List.flatMap_singleton, hstray, he]
  have htexts : d.inspect.warnings.map Warning.text =
        ["within local: unexpected function definition for g".toList,
          "within local: no purpose statement".toList,
          "within local def of f: no purpose statement".toList] := by
    rw [warnings_inspect, hlocals]
    simp only [Review.localWarnings, hinner, houter, List.flatMap_cons, List.flatMap_nil,
      List.append_nil]
    rfl
  obtain ⟨place, base, htext, hproper, hbase, -⟩ :=
    (inspect_names_one_place d).2 "within local def of f: no purpose statement".toList
      (by rw [htexts]; simp)
  exact ⟨htexts, place, base, htext, hproper, hbase⟩

end Definition

end DesignRecipe
