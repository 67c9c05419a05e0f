import DesignRecipe.Text.Basic
import Mathlib.Data.List.Infix

/-!
# What occurs in a text

A part occurs in a text if it is an infix of it. Putting a new text in place of the first occurrence
of a character changes nothing about what stands in front of it and behind it, so a part that has no
character of the new text occurs in the result only where it occurred before.
-/
namespace DesignRecipe.Text

variable {part new s t : Text} {c : Char}

theorem occurs_iff_infix : occurs part s = true ↔ part <:+: s := by
  induction s with
  | nil => simp [occurs]
  | cons c s ih =>
    rw [occurs, Bool.or_eq_true, ih, List.isPrefixOf_iff_prefix, List.infix_cons_iff]

theorem replaceFirst_of_notMem (h : c ∉ s) : replaceFirst c new s = s := by
  induction s with
  | nil => rfl
  | cons d s ih =>
    obtain ⟨hd, hs⟩ := not_or.1 (mt List.mem_cons.2 h)
    rw [replaceFirst, if_neg (Ne.symm hd), ih hs]

theorem replaceFirst_append (h : c ∉ s) (new t : Text) :
    replaceFirst c new (s ++ c :: t) = s ++ new ++ t := by
  induction s with
  | nil => simp [replaceFirst]
  | cons d s ih =>
    obtain ⟨hd, hs⟩ := not_or.1 (mt List.mem_cons.2 h)
    rw [List.cons_append, replaceFirst, if_neg (Ne.symm hd), ih hs]
    rfl

/-- An infix that begins with another character than the text is an infix of the rest. -/
theorem infix_of_infix_cons {d : Char} (h : c :: part <:+: d :: s) (hne : c ≠ d) :
    c :: part <:+: s := by
  rcases List.infix_cons_iff.1 h with hfirst | hinfix
  · exact absurd (List.cons_prefix_cons.1 hfirst).1 hne
  · exact hinfix

theorem infix_of_infix_append (h : c :: part <:+: new ++ s) (hc : c ∉ new) : c :: part <:+: s := by
  induction new with
  | nil => exact h
  | cons d new ih =>
    obtain ⟨hd, hnew⟩ := not_or.1 (mt List.mem_cons.2 hc)
    exact ih (infix_of_infix_cons h hd) hnew

theorem prefix_of_prefix_replaceFirst (hnew : new ≠ []) (hdisjoint : part.Disjoint new)
    (h : part <+: replaceFirst c new s) : part <+: s := by
  induction s generalizing part with
  | nil => exact h
  | cons d s ih =>
    cases part with
    | nil => exact List.nil_prefix
    | cons e part =>
      rw [replaceFirst] at h
      split_ifs at h with hd
      · obtain ⟨x, new, rfl⟩ := List.exists_cons_of_ne_nil hnew
        have hhead : e = x := (List.cons_prefix_cons.1 h).1
        exact absurd (hhead ▸ List.mem_cons_self) (hdisjoint List.mem_cons_self)
      · obtain ⟨rfl, hrest⟩ := List.cons_prefix_cons.1 h
        exact List.cons_prefix_cons.2 ⟨rfl, ih (List.disjoint_of_disjoint_cons_left hdisjoint) hrest⟩

/-- A part with nothing of the new text in it is not made by the replacement. -/
theorem infix_of_infix_replaceFirst (hnew : new ≠ []) (hdisjoint : part.Disjoint new)
    (h : part <:+: replaceFirst c new s) : part <:+: s := by
  cases part with
  | nil => exact List.nil_infix
  | cons e part =>
    induction s with
    | nil => exact h
    | cons d s ih =>
      by_cases hd : d = c
      · rw [replaceFirst, if_pos hd] at h
        have hbehind := infix_of_infix_append h (hdisjoint List.mem_cons_self)
        exact hbehind.trans (List.suffix_cons d s).isInfix
      · have hfirst : e :: part <+: replaceFirst c new (d :: s) → e :: part <+: d :: s :=
          prefix_of_prefix_replaceFirst hnew hdisjoint
        rw [replaceFirst, if_neg hd] at h hfirst
        rcases List.infix_cons_iff.1 h with hfront | hinside
        · exact (hfirst hfront).isInfix
        · exact (ih hinside).trans (List.suffix_cons d s).isInfix

end DesignRecipe.Text
