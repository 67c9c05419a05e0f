import DesignRecipe.Form.Basic

/-!
# Forms in forms

A form stands in a list if it is an item of the list or stands in one.
-/
namespace DesignRecipe.Form

/-- The first form stands in the second, which is a list, on any level. -/
inductive Within (f : Form) : Form → Prop where
  | item {items : List Form} : f ∈ items → Within f (.list items)
  | deeper {g : Form} {items : List Form} : Within f g → g ∈ items → Within f (.list items)

@[simp] theorem not_within_atom {f : Form} {kind : AtomKind} {text : Text} :
    ¬Within f (.atom kind text) := by
  intro h
  cases h

theorem within_list_iff {f : Form} {items : List Form} :
    Within f (.list items) ↔ ∃ g ∈ items, g = f ∨ Within f g := by
  constructor
  · intro h
    cases h with
    | item hf => exact ⟨f, hf, .inl rfl⟩
    | deeper hg hmem => exact ⟨_, hmem, .inr hg⟩
  · rintro ⟨g, hmem, rfl | hg⟩
    · exact .item hmem
    · exact .deeper hg hmem

theorem Within.trans {f g h : Form} (hfg : Within f g) (hgh : Within g h) : Within f h := by
  induction hgh with
  | item hg => exact .deeper hfg hg
  | deeper _ hmem ih => exact .deeper ih hmem

end DesignRecipe.Form
