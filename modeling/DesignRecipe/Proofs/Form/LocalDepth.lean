import DesignRecipe.Proofs.Form.CallPlaces
import DesignRecipe.Proofs.Form.Within
import Mathlib.Order.Bounds.Basic

/-!
# How deep local forms nest

Of all ways down from some forms the one with the most `local` forms on it tells how deep `local`
forms nest there. What stands in the definitions of a `local` form has lost this form on its way, so
that the depth goes down with every such form that is entered.
-/
namespace DesignRecipe.Form

/-- A list that begins with the name `local`. -/
def isLocal : Form → Bool
  | .list (head :: _) => head.isNamed "local".toList
  | _ => false

/-- The items of a list; an atom has none. -/
def inside (f : Form) : List Form := f.items?.getD []

mutual

/-- The greatest number of `local` forms on a way down from the form. -/
def localDepth : Form → ℕ
  | .atom .. => 0
  | .list items => (if (list items).isLocal then 1 else 0) + localDepthOfAll items

def localDepthOfAll : List Form → ℕ
  | [] => 0
  | f :: items => max f.localDepth (localDepthOfAll items)

end

/-- A way down to a form without items: one of the forms, one of its items, and so on. -/
inductive Way : List Form → List Form → Prop
  | arrived : Way [] []
  | down {forms way : List Form} {f : Form} : f ∈ forms → Way f.inside way → Way forms (f :: way)

variable {f g : Form} {forms items way : List Form}

theorem localDepth_eq (f : Form) :
    f.localDepth = (if f.isLocal then 1 else 0) + localDepthOfAll f.inside := by
  cases f with
  | atom kind text => rfl
  | list items => rw [localDepth]; rfl

theorem localDepth_le_localDepthOfAll (h : f ∈ items) : f.localDepth ≤ localDepthOfAll items := by
  induction items with
  | nil => cases h
  | cons g items ih =>
    rw [localDepthOfAll]
    rcases List.mem_cons.1 h with rfl | h
    · exact Nat.le_max_left _ _
    · exact (ih h).trans (Nat.le_max_right _ _)

theorem localDepthOfAll_le (items : List Form) : localDepthOfAll items ≤ (list items).localDepth := by
  rw [localDepth]
  exact Nat.le_add_left _ _

mutual

/-- A `local` form is one of the lists on a way down. -/
theorem localDepth_le_depth (f : Form) : f.localDepth ≤ f.depth := by
  cases f with
  | atom kind text => exact Nat.le_refl 0
  | list items =>
    have hitems := localDepthOfAll_le_depthOfAll items
    rw [localDepth, depth]
    split_ifs <;> omega

theorem localDepthOfAll_le_depthOfAll (items : List Form) :
    localDepthOfAll items ≤ depthOfAll items := by
  cases items with
  | nil => exact Nat.le_refl 0
  | cons f items =>
    have hf := localDepth_le_depth f
    have hitems := localDepthOfAll_le_depthOfAll items
    rw [localDepthOfAll, depthOfAll]
    omega

end

/-! ### Ways down -/

theorem Way.countP_le (h : Way forms way) : way.countP isLocal ≤ localDepthOfAll forms := by
  induction h with
  | arrived => exact Nat.le_refl 0
  | @down forms way f hf _ ih =>
    calc (f :: way).countP isLocal
        = way.countP isLocal + if f.isLocal then 1 else 0 := List.countP_cons
      _ ≤ f.localDepth := by rw [localDepth_eq]; omega
      _ ≤ localDepthOfAll forms := localDepth_le_localDepthOfAll hf

mutual

theorem exists_way_inside (f : Form) :
    ∃ way, Way f.inside way ∧ (f :: way).countP isLocal = f.localDepth := by
  cases f with
  | atom kind text => exact ⟨[], .arrived, rfl⟩
  | list items =>
    obtain ⟨way, hway, hcount⟩ := exists_way items
    refine ⟨way, hway, ?_⟩
    rw [List.countP_cons, hcount, localDepth, Nat.add_comm]

theorem exists_way (items : List Form) :
    ∃ way, Way items way ∧ way.countP isLocal = localDepthOfAll items := by
  cases items with
  | nil => exact ⟨[], .arrived, rfl⟩
  | cons f items =>
    obtain ⟨way, hway, hcount⟩ := exists_way_inside f
    obtain ⟨other, hother, hothers⟩ := exists_way items
    rw [localDepthOfAll]
    rcases Nat.le_total (localDepthOfAll items) f.localDepth with hle | hle
    · exact ⟨f :: way, .down List.mem_cons_self hway, by rw [hcount, Nat.max_eq_left hle]⟩
    · rw [Nat.max_eq_right hle]
      cases hother with
      | arrived =>
        -- there is no other way, and none is needed
        obtain hnone : f.localDepth = 0 := Nat.le_zero.1 hle
        exact ⟨f :: way, .down List.mem_cons_self hway, hcount.trans hnone⟩
      | down hg hbelow => exact ⟨_, .down (List.mem_cons_of_mem f hg) hbelow, hothers⟩

end

/-- The depth is the greatest number of `local` forms on one way down. -/
theorem isGreatest_localDepthOfAll (forms : List Form) :
    IsGreatest {n | ∃ way, Way forms way ∧ way.countP isLocal = n} (localDepthOfAll forms) := by
  refine ⟨exists_way forms, ?_⟩
  rintro n ⟨way, hway, rfl⟩
  exact hway.countP_le

/-! ### Forms in forms -/

theorem Within.localDepth_le (h : Within f g) : f.localDepth ≤ g.localDepth := by
  induction h with
  | @item items hf =>
    exact (localDepth_le_localDepthOfAll hf).trans (localDepthOfAll_le items)
  | @deeper g items _ hg ih =>
    exact (ih.trans (localDepth_le_localDepthOfAll hg)).trans (localDepthOfAll_le items)

theorem eq_or_within_of_at? {place : List ℕ} (h : f.at? place = some g) : g = f ∨ Within g f := by
  induction place generalizing f with
  | nil =>
    cases f <;> exact .inl (Option.some.inj h).symm
  | cons i place ih =>
    cases f with
    | atom kind text => cases h
    | list items =>
      obtain ⟨f, hf, hplace⟩ := Option.bind_eq_some_iff.1 h
      have hmem : f ∈ items := List.mem_of_getElem? hf
      rcases ih hplace with rfl | hwithin
      · exact .inr (.item hmem)
      · exact .inr (.deeper hwithin hmem)

/-- A call is a list that begins with its name, and it is the form or stands in it. -/
theorem callAt_of_mem_calls {call : Call} (h : call ∈ f.calls) :
    (call.form = f ∨ Within call.form f) ∧ ∃ rest, call.items = .atom .identifier call.name :: rest := by
  obtain ⟨n, hn, rfl⟩ := List.getElem_of_mem h
  have hplaces := callAt_callPlaces f
  have hlength : n < f.callPlaces.length := hplaces.length_eq ▸ hn
  obtain ⟨hat, hname⟩ := List.forall₂_iff_get.1 hplaces |>.2 n hlength hn
  exact ⟨eq_or_within_of_at? hat, hname⟩

/-! ### The definitions of a local form -/

variable {call : Call}

/-- The `local` form itself is on no way down from its definitions. -/
theorem localDepthOfAll_lt (hcall : call ∈ f.calls) (h : call.localForms? = some forms) :
    localDepthOfAll forms < f.localDepth := by
  obtain ⟨hplace, rest, hitems⟩ := callAt_of_mem_calls hcall
  obtain ⟨hname, hmem⟩ := Call.of_localForms? h
  have hlocal : call.form.isLocal = true := by
    rw [Call.form, hitems, hname]
    rfl
  have hform : call.form.localDepth = 1 + localDepthOfAll call.items := by
    rw [localDepth_eq, if_pos hlocal]
    rfl
  have hdefinitions : localDepthOfAll forms ≤ localDepthOfAll call.items :=
    (localDepthOfAll_le forms).trans (localDepth_le_localDepthOfAll hmem)
  have hcalled : call.form.localDepth ≤ f.localDepth := by
    rcases hplace with rfl | hwithin
    · exact Nat.le_refl _
    · exact hwithin.localDepth_le
  omega

/-- The definitions of a `local` form stand in the form around it. -/
theorem within_of_localForms? (hcall : call ∈ f.calls) (h : call.localForms? = some forms)
    (hg : g ∈ forms) : Within g f := by
  have hinside : Within g call.form := .deeper (.item hg) (Call.of_localForms? h).2
  rcases (callAt_of_mem_calls hcall).1 with hform | hwithin
  · exact hform ▸ hinside
  · exact hinside.trans hwithin

end DesignRecipe.Form
