import DesignRecipe.Proofs.Recipe.Blockwise
import DesignRecipe.Proofs.Recipe.Signature

/-!
# Programs behind one another

A review carries nothing over from one block to the next. So where a program that begins with a
signature stands behind another one, both are reviewed as if they stood alone. Only a purpose
statement at the end of the first program would reach over the boundary.
-/
namespace DesignRecipe

namespace Block

variable {b : Block} {blocks others : List Block} {rest more : List Form}

/-- There is a form behind the signature that no purpose statement goes beyond. -/
def IsClosed (b : Block) : Prop := ∃ f ∈ b.purpose ++ b.body, Review.isPurpose f = false

theorem Fits.body_ne_nil (h : b.Fits rest) (hclosed : b.IsClosed) : b.body ≠ [] := by
  intro hnil
  obtain ⟨f, hf, hnot⟩ := hclosed
  rw [hnil, List.append_nil] at hf
  rw [h.purpose f hf] at hnot
  cases hnot

/-- More forms from a signature on do not change how far a block reaches. -/
theorem Fits.append (h : b.Fits rest) (hbehind : b.body ++ rest ≠ [])
    (hmore : ∀ f, more.head? = some f → Signature.name? f ≠ none) : b.Fits (rest ++ more) where
  signature := h.signature
  purpose := h.purpose
  purpose_maximal := by
    rw [← List.append_assoc, List.head?_append_of_ne_nil _ hbehind]
    exact h.purpose_maximal
  body := h.body
  body_maximal := by
    cases rest with
    | nil => exact hmore
    | cons f rest => exact h.body_maximal

theorem Chained.append (hblocks : Chained blocks) (hothers : Chained others)
    (hlast : ∀ b, blocks.getLast? = some b → b.IsClosed) : Chained (blocks ++ others) := by
  induction hblocks with
  | nil => exact hothers
  | @cons b blocks hb _ ih =>
    -- only the purpose statement of the last block could reach over the boundary
    have hbehind : b.body ++ blocks.flatMap forms ≠ [] := by
      cases blocks with
      | nil => simpa using hb.body_ne_nil (hlast b rfl)
      | cons c blocks => simp [forms]
    have hfits := hb.append hbehind hothers.head?_signed
    rw [← List.flatMap_append] at hfits
    refine .cons hfits (ih ?_)
    intro c hc
    apply hlast c
    rw [List.getLast?_cons, hc]
    rfl

end Block

namespace Segmentation

variable {front behind : List Form}

/-- Nothing stands in front of the first signature if it is the first form. -/
theorem opening_eq_nil (s : Segmentation behind) {f : Form} (hfirst : behind.head? = some f)
    (hsigned : Signature.name? f ≠ none) : s.opening = [] := by
  obtain ⟨rest, rfl⟩ := List.head?_eq_some_iff.1 hfirst
  rw [s.opening_eq, List.takeWhile_cons, isUnsigned_eq_false_iff.2 hsigned]
  rfl

/-- The blocks of both programs are the blocks of the whole. -/
def append (s : Segmentation front) (t : Segmentation behind)
    (hlast : ∀ b, s.blocks.getLast? = some b → b.IsClosed) (hopening : t.opening = []) :
    Segmentation (front ++ behind) where
  opening := s.opening
  blocks := s.blocks ++ t.blocks
  opening_unsigned := s.opening_unsigned
  chained := s.chained.append t.chained hlast
  forms_eq := by
    have ht := t.forms_eq
    rw [hopening, List.nil_append] at ht
    rw [List.flatMap_append, ← List.append_assoc, s.forms_eq, ht]

/-- Without signatures there are no blocks. -/
theorem blocks_eq_nil (s : Segmentation front) (h : ∀ f ∈ front, Signature.name? f = none) :
    s.blocks = [] := by
  let whole : Segmentation front := ⟨front, [], h, .nil, by simp⟩
  rw [Subsingleton.elim s whole]

end Segmentation

namespace Review

variable {front behind : List Form} {f : Form}

/-- The review of two programs behind one another is made of the two reviews: first the sections
of the first program, then the designs of the second, whose opening is empty. -/
theorem ofProgram_append
    (hfront : (∀ f ∈ front, Signature.name? f = none) ∨
      ∃ (s : Segmentation front) (b : Block), s.blocks.getLast? = some b ∧ b.IsClosed)
    (hfirst : behind.head? = some f) (hsigned : Signature.name? f ≠ none) (threshold : Int) :
    (ofProgram behind threshold).sections.head? = some (.opening []) ∧
      (ofProgram (front ++ behind) threshold).sections =
        (ofProgram front threshold).sections ++ (ofProgram behind threshold).sections.tail ∧
      (ofProgram (front ++ behind) threshold).templates =
        (ofProgram front threshold).templates ++ (ofProgram behind threshold).templates := by
  obtain ⟨s⟩ : Nonempty (Segmentation front) := inferInstance
  obtain ⟨t⟩ : Nonempty (Segmentation behind) := inferInstance
  have hopening := t.opening_eq_nil hfirst hsigned
  have hlast : ∀ b, s.blocks.getLast? = some b → b.IsClosed := by
    intro b hb
    rcases hfront with hunsigned | ⟨s', b', hb', hclosed⟩
    · rw [s.blocks_eq_nil hunsigned] at hb
      cases hb
    · rw [Subsingleton.elim s s', hb'] at hb
      cases hb
      exact hclosed
  have hsections := sections_ofProgram (s.append t hlast hopening) threshold
  have htemplates := templates_ofProgram (s.append t hlast hopening) threshold
  refine ⟨?_, ?_, ?_⟩
  · rw [sections_ofProgram t, hopening]
    rfl
  · rw [hsections, sections_ofProgram s, sections_ofProgram t]
    simp [Segmentation.append]
  · rw [htemplates, templates_ofProgram s, templates_ofProgram t, hopening]
    simp [Segmentation.append]

/-- A design that is closed by a string, and one that is not, behind one another. -/
theorem ofProgram_append_of_string :
    let signature : Form := .atom .lineComment ";f:A -> B".toList
    let block : Block := ⟨['f'], signature, [], [.atom .string ['"', '"']]⟩
    (ofProgram (block.forms ++ [signature]) 2).sections =
        (ofProgram block.forms 2).sections ++ (ofProgram [signature] 2).sections.tail ∧
      (ofProgram [signature] 2).sections = [.opening [], .design (.ofName ['f'])] := by
  intro signature block
  have hsigned : Signature.name? signature = some ['f'] := Signature.name?_short
  have hblock : block.Fits [] := Block.fits_of_string hsigned _ (by simp)
  have hclosed : block.IsClosed := ⟨.atom .string ['"', '"'], by simp [block], rfl⟩
  let alone : Segmentation block.forms := ⟨[], [block], by simp, .cons hblock .nil, by simp⟩
  have hne : Signature.name? signature ≠ none := by simp [hsigned]
  have hboth := @ofProgram_append block.forms [signature] signature
    (.inr ⟨alone, block, rfl, hclosed⟩) rfl hne 2
  refine ⟨hboth.2.1, ?_⟩
  exact sections_of_block (Block.fits_of_last hsigned) 2

end Review

end DesignRecipe
