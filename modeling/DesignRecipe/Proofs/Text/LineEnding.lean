import DesignRecipe.Text.LineEnding
import Mathlib.Data.List.TakeWhile

/-!
# Unified line ends

Line ends are unified from left to right. Only a carriage return looks at what stands behind it, so
texts are unified part by part wherever they are not cut between a carriage return and the line feed
that belongs to it, and what stands inside of lines stays as it is.
-/
namespace DesignRecipe.Text

variable {c : Char} {s a b part : Text}

@[simp] theorem unifyLineEnds_nil : unifyLineEnds [] = [] := rfl

theorem unifyLineEnds_cons (hc : c ≠ '\r') :
    unifyLineEnds (c :: s) = c :: unifyLineEnds s := by
  rw [unifyLineEnds]
  · rintro t rfl
    exact absurd rfl hc
  · rintro rfl
    exact absurd rfl hc

/-- A carriage return gives way to the line feed behind it. -/
theorem unifyLineEnds_pair (s : Text) :
    unifyLineEnds ('\r' :: '\n' :: s) = unifyLineEnds ('\n' :: s) := by
  rw [unifyLineEnds, unifyLineEnds_cons (by decide)]

theorem unifyLineEnds_return (hs : s.head? ≠ some '\n') :
    unifyLineEnds ('\r' :: s) = '\n' :: unifyLineEnds s := by
  rw [unifyLineEnds]
  rintro t rfl
  exact hs rfl

/-- What holds of texts is proved by what may stand at their front. -/
@[elab_as_elim]
theorem lineEnd_induction {motive : Text → Prop} (s : Text) (nil : motive [])
    (cons : ∀ c s, c ≠ '\r' → motive s → motive (c :: s))
    (pair : ∀ s, motive ('\n' :: s) → motive ('\r' :: '\n' :: s))
    (lone : ∀ s, s.head? ≠ some '\n' → motive s → motive ('\r' :: s)) : motive s := by
  induction s with
  | nil => exact nil
  | cons c s ih =>
    by_cases hc : c = '\r'
    · subst hc
      by_cases hs : s.head? = some '\n'
      · obtain ⟨t, rfl⟩ := List.head?_eq_some_iff.1 hs
        exact pair t ih
      · exact lone s hs ih
    · exact cons c s hc ih

/-- A line feed stands where a carriage return stood. -/
theorem exists_unifyLineEnds_return (s : Text) : ∃ t, unifyLineEnds ('\r' :: s) = '\n' :: t := by
  by_cases hs : s.head? = some '\n'
  · obtain ⟨t, rfl⟩ := List.head?_eq_some_iff.1 hs
    exact ⟨unifyLineEnds t, rfl⟩
  · exact ⟨unifyLineEnds s, unifyLineEnds_return hs⟩

theorem unifyLineEnds_append (h : a.getLast? = some '\r' → b.head? ≠ some '\n') :
    unifyLineEnds (a ++ b) = unifyLineEnds a ++ unifyLineEnds b := by
  induction a using lineEnd_induction with
  | nil => rfl
  | cons c s hc ih =>
    have hs : s.getLast? = some '\r' → b.head? ≠ some '\n' := by
      intro hlast
      apply h
      rw [List.getLast?_cons, hlast]
      rfl
    rw [List.cons_append, unifyLineEnds_cons hc, unifyLineEnds_cons hc, ih hs, List.cons_append]
  | pair s ih =>
    rw [List.cons_append, List.cons_append, unifyLineEnds_pair, unifyLineEnds_pair]
    exact ih h
  | lone s hs ih =>
    have hfront : (s ++ b).head? ≠ some '\n' := by
      cases s with
      | nil => exact h rfl
      | cons c s => exact hs
    have hlast : s.getLast? = some '\r' → b.head? ≠ some '\n' := by
      intro hlast
      apply h
      rw [List.getLast?_cons, hlast]
      rfl
    rw [List.cons_append, unifyLineEnds_return hfront, unifyLineEnds_return hs, ih hlast,
      List.cons_append]

/-- Parts that are set apart by blanks are unified by themselves. -/
theorem unifyLineEnds_intercalate (parts : List Text) :
    unifyLineEnds ([' '].intercalate parts) = [' '].intercalate (parts.map unifyLineEnds) := by
  induction parts with
  | nil => rfl
  | cons part parts ih =>
    cases parts with
    | nil => simp
    | cons part' parts =>
      rw [List.map_cons, List.map_cons, List.intercalate_cons_cons, List.intercalate_cons_cons,
        List.append_assoc, unifyLineEnds_append, List.singleton_append,
        unifyLineEnds_cons (by decide), ih]
      · simp
      · intro _
        simp

theorem unifyLineEnds_of_not_mem (h : '\r' ∉ s) : unifyLineEnds s = s := by
  induction s with
  | nil => rfl
  | cons c s ih =>
    rw [List.mem_cons, not_or] at h
    rw [unifyLineEnds_cons (Ne.symm h.1), ih h.2]

theorem unifyLineEnds_append_of_not_mem (h : '\r' ∉ a) (b : Text) :
    unifyLineEnds (a ++ b) = a ++ unifyLineEnds b := by
  rw [unifyLineEnds_append, unifyLineEnds_of_not_mem h]
  intro hlast
  exact absurd (List.mem_of_getLast? hlast) h

/-- Inside of lines nothing changes. -/
theorem takeWhile_unifyLineEnds {p : Char → Bool} (hreturn : p '\r' = false)
    (hfeed : p '\n' = false) (s : Text) : (unifyLineEnds s).takeWhile p = s.takeWhile p := by
  induction s using lineEnd_induction with
  | nil => rfl
  | cons c s hc ih => rw [unifyLineEnds_cons hc, List.takeWhile_cons, List.takeWhile_cons, ih]
  | pair s ih =>
    rw [unifyLineEnds_pair, ih]
    simp [hreturn, hfeed]
  | lone s hs ih =>
    rw [unifyLineEnds_return hs]
    simp [hreturn, hfeed]

/-- Only line feeds come up at the front. -/
theorem head?_of_unifyLineEnds (hc : c ≠ '\n') (h : (unifyLineEnds s).head? = some c) :
    s.head? = some c := by
  cases s with
  | nil => exact h
  | cons d s =>
    by_cases hd : d = '\r'
    · subst hd
      obtain ⟨t, ht⟩ := exists_unifyLineEnds_return s
      rw [ht] at h
      cases h
      exact absurd rfl hc
    · rwa [unifyLineEnds_cons hd] at h

theorem isPrefixOf_of_unifyLineEnds (hfeed : '\n' ∉ part) (hreturn : '\r' ∉ part)
    (h : part.isPrefixOf (unifyLineEnds s) = true) : part.isPrefixOf s = true := by
  have hpart : ∀ c ∈ part, (c != '\n' && c != '\r') = true := by
    intro c hc
    have hnot : c ≠ '\n' ∧ c ≠ '\r' := ⟨fun h => hfeed (h ▸ hc), fun h => hreturn (h ▸ hc)⟩
    simp [hnot]
  rw [List.isPrefixOf_iff_prefix] at h ⊢
  obtain ⟨rest, hrest⟩ := h
  have hline := takeWhile_unifyLineEnds (p := fun c => c != '\n' && c != '\r') (by decide)
    (by decide) s
  rw [← hrest, List.takeWhile_append_of_pos hpart] at hline
  have hwithin : part <+: s.takeWhile fun c => c != '\n' && c != '\r' := ⟨_, hline⟩
  exact hwithin.trans (List.takeWhile_prefix _)

/-- Nothing that stands in one line comes up. -/
theorem occurs_of_unifyLineEnds (hfeed : '\n' ∉ part) (hreturn : '\r' ∉ part)
    (h : occurs part (unifyLineEnds s) = true) : occurs part s = true := by
  have hfront {s t : Text} (ht : unifyLineEnds s = t) (h : part.isPrefixOf t = true) :
      part.isPrefixOf s = true :=
    isPrefixOf_of_unifyLineEnds hfeed hreturn (ht ▸ h)
  induction s using lineEnd_induction with
  | nil => exact h
  | cons c s hc ih =>
    have hsame := unifyLineEnds_cons (s := s) hc
    rw [hsame, occurs, Bool.or_eq_true] at h
    rw [occurs, Bool.or_eq_true]
    exact h.imp (hfront hsame) ih
  | pair s ih =>
    rw [unifyLineEnds_pair] at h
    rw [occurs, Bool.or_eq_true]
    exact .inr (ih h)
  | lone s hs ih =>
    have hsame := unifyLineEnds_return hs
    rw [hsame, occurs, Bool.or_eq_true] at h
    rw [occurs, Bool.or_eq_true]
    exact h.imp (hfront hsame) ih

end DesignRecipe.Text
