import DesignRecipe.Proofs.Form.Calls
import DesignRecipe.Recipe.Review
import Mathlib.Data.List.DropRight

/-!
# Segmentation

Signatures divide a program into blocks. A block has its signature in front, then its purpose
statement, which reaches as far as comments and constants go and may hold signatures of its own,
and then its body, which ends in front of the next signature. A list of forms is divided in
exactly one way.
-/
namespace DesignRecipe

/-- A definition of a function, not of a template, in whose body `big-bang` is called. -/
def Form.startsProgram (f : Form) : Bool :=
  (Definition.ofForm? f).any fun d =>
    !d.isTemplate && decide (d.body.HasCall "big-bang".toList)

theorem Form.startsProgram_iff {f : Form} :
    f.startsProgram = true ↔
      ∃ e, Definition.ofForm? f = some e ∧ e.isTemplate = false ∧
        e.body.HasCall "big-bang".toList := by
  rw [startsProgram, Option.any_eq_true]
  simp only [Bool.and_eq_true, Bool.not_eq_true', decide_eq_true_eq]

structure Block where
  name : Text
  signature : Form
  purpose : List Form
  body : List Form

namespace Block

def forms (b : Block) : List Form := b.signature :: (b.purpose ++ b.body)

def purposeLines (b : Block) : Nat := b.purpose.countP Form.isComment

/-- The tests in the body. A program that starts there counts for those in front of it. -/
def tests (b : Block) : Nat :=
  if b.body.any Form.startsProgram then
    1000 + (b.body.rtakeWhile (!·.startsProgram)).countP Form.isTest
  else b.body.countP Form.isTest

/-- The block is as long as it can be, if `rest` follows it. -/
structure Fits (b : Block) (rest : List Form) : Prop where
  signature : Signature.name? b.signature = some b.name
  purpose : ∀ f ∈ b.purpose, Review.isPurpose f = true
  purpose_maximal : ∀ f, (b.body ++ rest).head? = some f → Review.isPurpose f = false
  body : ∀ f ∈ b.body, Signature.name? f = none
  body_maximal : ∀ f, rest.head? = some f → Signature.name? f ≠ none

/-- Every block fits in front of those that follow it. -/
inductive Chained : List Block → Prop
  | nil : Chained []
  | cons {b : Block} {blocks : List Block} :
    b.Fits (blocks.flatMap forms) → Chained blocks → Chained (b :: blocks)

end Block

/-- The forms in front of the first signature, and the blocks behind. -/
structure Segmentation (forms : List Form) where
  opening : List Form
  blocks : List Block
  opening_unsigned : ∀ f ∈ opening, Signature.name? f = none
  chained : Block.Chained blocks
  forms_eq : opening ++ blocks.flatMap Block.forms = forms

/-! ### Initial runs of a list -/

section boundary

variable {α : Type*} {p : α → Bool} {xs ys : List α}

/-- A run ends where the first element behind it does not belong to it. -/
theorem takeWhile_append_of_boundary (hxs : ∀ x ∈ xs, p x = true)
    (hys : ∀ y, ys.head? = some y → p y = false) : (xs ++ ys).takeWhile p = xs := by
  rw [List.takeWhile_append_of_pos hxs]
  cases ys with
  | nil => simp
  | cons y ys => simp [hys y rfl]

theorem dropWhile_append_of_boundary (hxs : ∀ x ∈ xs, p x = true)
    (hys : ∀ y, ys.head? = some y → p y = false) : (xs ++ ys).dropWhile p = ys := by
  rw [List.dropWhile_append_of_pos hxs]
  cases ys with
  | nil => rfl
  | cons y ys => simp [hys y rfl]

theorem eq_false_of_head?_dropWhile {x : α} (h : (xs.dropWhile p).head? = some x) :
    p x = false := by
  have hnot := List.head?_dropWhile_not p xs
  rwa [h] at hnot

end boundary

/-- No signature. -/
def isUnsigned (f : Form) : Bool := (Signature.name? f).isNone

theorem isUnsigned_iff {f : Form} : isUnsigned f = true ↔ Signature.name? f = none :=
  Option.isNone_iff_eq_none

theorem isUnsigned_eq_false_iff {f : Form} : isUnsigned f = false ↔ Signature.name? f ≠ none := by
  rw [← not_iff_not, Bool.not_eq_false, isUnsigned_iff, not_not]

/-- Signatures are comments, so a purpose statement may swallow them. -/
theorem isPurpose_of_signature {f : Form} (h : Signature.name? f ≠ none) :
    Review.isPurpose f = true := by
  unfold Signature.name? at h
  split at h
  · rfl
  · exact absurd rfl h

/-- A definition has its name and parameters where a constant has a name. -/
theorem isPurpose_of_definition {f : Form} {e : Definition} (h : Definition.ofForm? f = some e) :
    Review.isPurpose f = false := by
  unfold Definition.ofForm? at h
  split at h
  · simp [Review.isPurpose, Form.isComment, Form.isConstant, Form.name?]
  · cases h

theorem unsigned_of_definition {f : Form} {e : Definition} (h : Definition.ofForm? f = some e) :
    Signature.name? f = none := by
  by_contra hsigned
  have hpurpose := isPurpose_of_signature hsigned
  rw [isPurpose_of_definition h] at hpurpose
  cases hpurpose

namespace Block

variable {b : Block} {blocks : List Block} {rest : List Form}

theorem Fits.body_unsigned (h : b.Fits rest) : ∀ f ∈ b.body, isUnsigned f = true := by
  intro f hf
  exact isUnsigned_iff.2 (h.body f hf)

theorem Fits.rest_signed (h : b.Fits rest) : ∀ f, rest.head? = some f → isUnsigned f = false := by
  intro f hf
  exact isUnsigned_eq_false_iff.2 (h.body_maximal f hf)

theorem Fits.takeWhile_isPurpose (h : b.Fits rest) :
    (b.purpose ++ (b.body ++ rest)).takeWhile Review.isPurpose = b.purpose :=
  takeWhile_append_of_boundary h.purpose h.purpose_maximal

theorem Fits.dropWhile_isPurpose (h : b.Fits rest) :
    (b.purpose ++ (b.body ++ rest)).dropWhile Review.isPurpose = b.body ++ rest :=
  dropWhile_append_of_boundary h.purpose h.purpose_maximal

/-- A block is determined by the forms from its signature on. -/
theorem Fits.eq_of_append_eq {c : Block} {more : List Form} (hb : b.Fits rest) (hc : c.Fits more)
    (h : b.forms ++ rest = c.forms ++ more) : b = c ∧ rest = more := by
  simp only [forms, List.cons_append, List.append_assoc, List.cons.injEq] at h
  obtain ⟨hsignature, hbehind⟩ := h
  have hname : b.name = c.name := by
    have hb' := hb.signature
    rw [hsignature, hc.signature] at hb'
    exact (Option.some.inj hb').symm
  have hpurpose : b.purpose = c.purpose := by
    rw [← hb.takeWhile_isPurpose, hbehind, hc.takeWhile_isPurpose]
  have hinside : b.body ++ rest = c.body ++ more := by
    rw [hpurpose] at hbehind
    exact List.append_cancel_left hbehind
  have hbody : b.body = c.body := by
    rw [← takeWhile_append_of_boundary hb.body_unsigned hb.rest_signed, hinside,
      takeWhile_append_of_boundary hc.body_unsigned hc.rest_signed]
  rw [hbody] at hinside
  refine ⟨?_, List.append_cancel_left hinside⟩
  cases b
  simp_all

/-- A string behind a signature is not a part of its purpose statement. -/
theorem fits_of_string {name : Text} {signature : Form} (h : Signature.name? signature = some name)
    (text : Text) (hrest : ∀ f, rest.head? = some f → Signature.name? f ≠ none) :
    Fits ⟨name, signature, [], [.atom .string text]⟩ rest where
  signature := h
  purpose := by simp
  purpose_maximal := by simp [Review.isPurpose, Form.isComment, Form.isConstant]
  body := by simp [Signature.name?]
  body_maximal := hrest

theorem fits_of_last {name : Text} {signature : Form} (h : Signature.name? signature = some name) :
    Fits ⟨name, signature, [], []⟩ [] where
  signature := h
  purpose := by simp
  purpose_maximal := by simp
  body := by simp
  body_maximal := by simp

/-- A definition ends the purpose statement in front of it. -/
theorem fits_of_definition {name : Text} {signature f : Form} {purpose : List Form} {e : Definition}
    (h : Signature.name? signature = some name) (hpurpose : ∀ g ∈ purpose, Review.isPurpose g = true)
    (hf : Definition.ofForm? f = some e) : Fits ⟨name, signature, purpose, [f]⟩ [] where
  signature := h
  purpose := hpurpose
  purpose_maximal := by simp [isPurpose_of_definition hf]
  body := by simp [unsigned_of_definition hf]
  body_maximal := by simp

theorem Chained.head?_signed (h : Chained blocks) :
    ∀ f, (blocks.flatMap forms).head? = some f → Signature.name? f ≠ none := by
  intro f hf
  cases h with
  | nil => cases hf
  | cons hfits _ =>
    cases hf
    rw [hfits.signature]
    exact Option.some_ne_none _

theorem Chained.exists_fits (h : Chained blocks) (hb : b ∈ blocks) : ∃ rest, b.Fits rest := by
  induction h with
  | nil => cases hb
  | cons hfits _ ih =>
    rcases List.mem_cons.1 hb with rfl | hb
    · exact ⟨_, hfits⟩
    · exact ih hb

theorem Chained.eq_of_flatMap_eq {others : List Block} (hblocks : Chained blocks)
    (hothers : Chained others) (h : blocks.flatMap forms = others.flatMap forms) :
    blocks = others := by
  induction hblocks generalizing others with
  | nil =>
    cases hothers with
    | nil => rfl
    | cons => simp [forms] at h
  | cons hfits _ ih =>
    cases hothers with
    | nil => simp [forms] at h
    | cons hfits' hothers =>
      rw [List.flatMap_cons, List.flatMap_cons] at h
      obtain ⟨rfl, hrest⟩ := hfits.eq_of_append_eq hfits' h
      rw [ih hothers hrest]

/-- Forms that begin with a signature are blocks. -/
theorem exists_chained (items : List Form)
    (h : ∀ f, items.head? = some f → Signature.name? f ≠ none) :
    ∃ blocks, Chained blocks ∧ blocks.flatMap forms = items := by
  induction hn : items.length using Nat.strong_induction_on generalizing items with
  | _ n ih =>
    subst hn
    cases items with
    | nil => exact ⟨[], .nil, rfl⟩
    | cons f items =>
      obtain ⟨name, hname⟩ := Option.ne_none_iff_exists'.1 (h f rfl)
      let behind := items.dropWhile Review.isPurpose
      let rest := behind.dropWhile isUnsigned
      have hlength : rest.length < (f :: items).length := by
        have hrest : rest.length ≤ behind.length := (List.dropWhile_suffix _).length_le
        have hbehind : behind.length ≤ items.length := (List.dropWhile_suffix _).length_le
        rw [List.length_cons]
        omega
      have hsigned : ∀ g, rest.head? = some g → Signature.name? g ≠ none := by
        intro g hg
        exact isUnsigned_eq_false_iff.1 (eq_false_of_head?_dropWhile hg)
      obtain ⟨blocks, hblocks, hforms⟩ := ih _ hlength rest hsigned rfl
      refine ⟨⟨name, f, items.takeWhile Review.isPurpose, behind.takeWhile isUnsigned⟩ :: blocks,
        .cons ?_ hblocks, ?_⟩
      · rw [hforms]
        refine ⟨hname, fun g hg => List.mem_takeWhile_imp hg, ?_, ?_, hsigned⟩
        · intro g hg
          rw [List.takeWhile_append_dropWhile] at hg
          exact eq_false_of_head?_dropWhile hg
        · intro g hg
          exact isUnsigned_iff.1 (List.mem_takeWhile_imp hg)
      · rw [List.flatMap_cons, hforms]
        simp [forms, behind, rest]

end Block

namespace Segmentation

variable {forms : List Form}

theorem opening_eq (s : Segmentation forms) : s.opening = forms.takeWhile isUnsigned := by
  have hopening : ∀ f ∈ s.opening, isUnsigned f = true := by
    intro f hf
    exact isUnsigned_iff.2 (s.opening_unsigned f hf)
  have hblocks : ∀ f, (s.blocks.flatMap Block.forms).head? = some f → isUnsigned f = false := by
    intro f hf
    exact isUnsigned_eq_false_iff.2 (s.chained.head?_signed f hf)
  have hboth := takeWhile_append_of_boundary hopening hblocks
  rw [s.forms_eq] at hboth
  exact hboth.symm

theorem mem_of_mem_opening (s : Segmentation forms) {f : Form} (hf : f ∈ s.opening) :
    f ∈ forms := by
  rw [← s.forms_eq]
  exact List.mem_append_left _ hf

theorem mem_of_mem_body (s : Segmentation forms) {b : Block} (hb : b ∈ s.blocks) {f : Form}
    (hf : f ∈ b.body) : f ∈ forms := by
  have hinside : f ∈ b.forms := List.mem_cons_of_mem _ (List.mem_append_right _ hf)
  rw [← s.forms_eq]
  exact List.mem_append_right _ (List.mem_flatMap.2 ⟨b, hb, hinside⟩)

/-- A definition is neither a signature nor a part of a purpose statement. -/
theorem mem_opening_or_body_of_definition (s : Segmentation forms) {f : Form} {e : Definition}
    (hf : f ∈ forms) (he : Definition.ofForm? f = some e) :
    f ∈ s.opening ∨ ∃ b ∈ s.blocks, f ∈ b.body := by
  rw [← s.forms_eq, List.mem_append, List.mem_flatMap] at hf
  rcases hf with hopening | ⟨b, hb, hblock⟩
  · exact .inl hopening
  · obtain ⟨rest, hfits⟩ := s.chained.exists_fits hb
    rcases List.mem_cons.1 hblock with rfl | hbehind
    · have hsigned := hfits.signature
      rw [unsigned_of_definition he] at hsigned
      cases hsigned
    rcases List.mem_append.1 hbehind with hpurpose | hbody
    · have hbelongs := hfits.purpose f hpurpose
      rw [isPurpose_of_definition he] at hbelongs
      cases hbelongs
    · exact .inr ⟨b, hb, hbody⟩

instance (forms : List Form) : Subsingleton (Segmentation forms) where
  allEq s t := by
    have hopening : s.opening = t.opening := by rw [s.opening_eq, t.opening_eq]
    have hforms : s.blocks.flatMap Block.forms = t.blocks.flatMap Block.forms := by
      have hboth := s.forms_eq.trans t.forms_eq.symm
      rw [hopening] at hboth
      exact List.append_cancel_left hboth
    have hblocks := s.chained.eq_of_flatMap_eq t.chained hforms
    cases s
    cases t
    simp_all

instance (forms : List Form) : Nonempty (Segmentation forms) := by
  have hsigned : ∀ f, (forms.dropWhile isUnsigned).head? = some f → Signature.name? f ≠ none := by
    intro f hf
    exact isUnsigned_eq_false_iff.1 (eq_false_of_head?_dropWhile hf)
  obtain ⟨blocks, hblocks, hforms⟩ := Block.exists_chained _ hsigned
  refine ⟨⟨forms.takeWhile isUnsigned, blocks, ?_, hblocks, ?_⟩⟩
  · intro f hf
    exact isUnsigned_iff.1 (List.mem_takeWhile_imp hf)
  · rw [hforms, List.takeWhile_append_dropWhile]

end Segmentation

end DesignRecipe
