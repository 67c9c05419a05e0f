import DesignRecipe.Proofs.Form.Calls
import Mathlib.Data.List.Forall2
import Mathlib.Data.List.Lex

/-!
# Where calls are found

A place in a form is told by the way down to it. In the lexicographic order of places a form comes
before what stands in it, and what stands in an item before what stands in a later one. A search
meets the calls of a form place by place in this order and ends behind the first one that satisfies
its test.
-/
namespace DesignRecipe.Form

/-- The form at a place. Each number says which item of a list to enter on the way down. -/
def at? : Form → List ℕ → Option Form
  | f, [] => some f
  | .list items, i :: place => items[i]?.bind (·.at? place)
  | .atom .., _ :: _ => none

/-- The list with the items of the call stands at the place and begins with its name. -/
def CallAt (f : Form) (place : List ℕ) (c : Call) : Prop :=
  f.at? place = some (.list c.items) ∧ ∃ rest, c.items = .atom .identifier c.name :: rest

mutual

/-- The places of all lists that begin with an identifier. -/
def callPlaces : Form → List (List ℕ)
  | .atom .. => []
  | .list items =>
    (if (Call.ofItems? items).isSome then [[]] else []) ++ callPlacesFrom 0 items

/-- The places in items of which the first one has the number `n`. -/
def callPlacesFrom (n : ℕ) : List Form → List (List ℕ)
  | [] => []
  | f :: items => f.callPlaces.map (n :: ·) ++ callPlacesFrom (n + 1) items

end

variable {items : List Form} {place : List ℕ} {n : ℕ}

theorem mem_callPlacesFrom_iff :
    place ∈ callPlacesFrom n items ↔
      ∃ i f below, items[i]? = some f ∧ place = (n + i) :: below ∧ below ∈ f.callPlaces := by
  induction items generalizing n with
  | nil => simp [callPlacesFrom]
  | cons f items ih =>
    rw [callPlacesFrom, List.mem_append, List.mem_map, ih]
    constructor
    · rintro (⟨below, hbelow, rfl⟩ | ⟨i, g, below, hg, rfl, hbelow⟩)
      · exact ⟨0, f, below, rfl, rfl, hbelow⟩
      · exact ⟨i + 1, g, below, hg, by rw [Nat.add_right_comm, Nat.add_assoc], hbelow⟩
    · rintro ⟨_ | i, g, below, hg, rfl, hbelow⟩
      · cases hg
        exact .inl ⟨below, hbelow, rfl⟩
      · exact .inr ⟨i, g, below, hg, by rw [Nat.add_right_comm, Nat.add_assoc], hbelow⟩

theorem nil_not_mem_callPlacesFrom : [] ∉ callPlacesFrom n items := by
  rw [mem_callPlacesFrom_iff]
  rintro ⟨i, f, below, -, hnil, -⟩
  cases hnil

theorem isSome_ofItems?_iff :
    (Call.ofItems? items).isSome = true ↔
      ∃ name rest, items = .atom .identifier name :: rest := by
  cases items with
  | nil => simp [Call.ofItems?]
  | cons head rest =>
    cases head with
    | atom kind text => cases kind <;> simp [Call.ofItems?, name?]
    | list inner => simp [Call.ofItems?, name?]

/-- No place of a call is left out, and no other place is taken in. -/
theorem mem_callPlaces_iff (f : Form) (place : List ℕ) :
    place ∈ f.callPlaces ↔
      ∃ name rest, f.at? place = some (.list (.atom .identifier name :: rest)) := by
  induction place generalizing f with
  | nil =>
    cases f with
    | atom kind text => simp [callPlaces, at?]
    | list items =>
      have hhere : [] ∈ (list items).callPlaces ↔ (Call.ofItems? items).isSome = true := by
        rw [callPlaces]
        split_ifs with hcall <;> simp [hcall, nil_not_mem_callPlacesFrom]
      rw [hhere, isSome_ofItems?_iff]
      simp [at?]
  | cons i place ih =>
    cases f with
    | atom kind text => simp [callPlaces, at?]
    | list items =>
      have hinside : i :: place ∈ (list items).callPlaces ↔
          ∃ g, items[i]? = some g ∧ place ∈ g.callPlaces := by
        rw [callPlaces, List.mem_append, mem_callPlacesFrom_iff]
        split_ifs <;> simp [eq_comm]
      rw [hinside, at?]
      simp only [ih, Option.bind_eq_some_iff]
      constructor
      · rintro ⟨g, hg, name, rest, hat⟩
        exact ⟨name, rest, g, hg, hat⟩
      · rintro ⟨name, rest, g, hg, hat⟩
        exact ⟨g, hg, name, rest, hat⟩

example : (list [.list [], .list [.atom .identifier ['f']]]).callPlaces = [[1]] := by decide

mutual

theorem callPlaces_pairwise (f : Form) : f.callPlaces.Pairwise (· < ·) := by
  cases f with
  | atom kind text => exact .nil
  | list items =>
    have hitems := callPlacesFrom_pairwise 0 items
    rw [callPlaces]
    split_ifs
    · refine .cons ?_ hitems
      intro place hplace
      obtain ⟨i, g, below, -, rfl, -⟩ := mem_callPlacesFrom_iff.1 hplace
      exact List.nil_lt_cons _ _
    · exact hitems

theorem callPlacesFrom_pairwise (n : ℕ) (items : List Form) :
    (callPlacesFrom n items).Pairwise (· < ·) := by
  cases items with
  | nil => exact .nil
  | cons f items =>
    rw [callPlacesFrom, List.pairwise_append, List.pairwise_map]
    refine ⟨(callPlaces_pairwise f).imp List.cons_lt_cons_self.2,
      callPlacesFrom_pairwise (n + 1) items, ?_⟩
    intro place hplace later hlater
    obtain ⟨below, -, rfl⟩ := List.mem_map.1 hplace
    obtain ⟨i, g, below', -, rfl, -⟩ := mem_callPlacesFrom_iff.1 hlater
    exact List.cons_lt_cons_iff.2 (.inl (by omega))

end

/-- What stands at a place in an item stands one number further down in the list. -/
theorem CallAt.inside {f : Form} {c : Call} (h : f.CallAt place c) (before items : List Form) :
    (list (before ++ f :: items)).CallAt (before.length :: place) c := by
  refine ⟨?_, h.2⟩
  have hitem : (before ++ f :: items)[before.length]? = some f := by simp
  rw [at?, hitem]
  exact h.1

mutual

/-- The calls of a form are those at its places. -/
theorem callAt_callPlaces (f : Form) : List.Forall₂ f.CallAt f.callPlaces f.calls := by
  cases f with
  | atom kind text => exact .nil
  | list items =>
    have hitems := callAt_callPlacesFrom [] items
    rw [callPlaces, calls_list]
    cases hcall : Call.ofItems? items with
    | none => exact hitems
    | some c =>
      obtain ⟨name, rest, rfl⟩ := isSome_ofItems?_iff.1 (Option.isSome_of_eq_some hcall)
      cases hcall
      exact .cons ⟨rfl, rest, rfl⟩ hitems

theorem callAt_callPlacesFrom (before items : List Form) :
    List.Forall₂ (list (before ++ items)).CallAt (callPlacesFrom before.length items)
      (items.flatMap calls) := by
  cases items with
  | nil => exact .nil
  | cons f items =>
    have hf := callAt_callPlaces f
    have hitems := callAt_callPlacesFrom (before ++ [f]) items
    rw [callPlacesFrom, List.flatMap_cons]
    apply List.rel_append
    · rw [List.forall₂_map_left_iff]
      exact hf.imp fun place c hc => hc.inside before items
    · simpa using hitems

end

/-- The calls of a form are the lists in it that begin with an identifier, each place once and in
the order of places. A search gives them through the first one that satisfies its test. -/
theorem search_meets_calls_in_order (f : Form) :
    (∃ places : List (List ℕ), places.Pairwise (· < ·) ∧
      (∀ place, place ∈ places ↔
        ∃ name rest, f.at? place = some (.list (.atom .identifier name :: rest))) ∧
      List.Forall₂ (fun place c => f.at? place = some (.list c.items) ∧
        ∃ rest, c.items = .atom .identifier c.name :: rest) places f.calls) ∧
    (∀ kind text, (atom kind text).calls = []) ∧
    ∀ p : Call → Bool,
      ((∀ c ∈ f.calls, p c = false) ∧ f.search p = (f.calls, false) ∧ f.findCall? p = none) ∨
        ∃ before c after, f.calls = before ++ c :: after ∧ (∀ b ∈ before, p b = false) ∧
          p c = true ∧ f.search p = (before ++ [c], true) ∧ f.findCall? p = some c := by
  refine ⟨⟨f.callPlaces, callPlaces_pairwise f, mem_callPlaces_iff f, callAt_callPlaces f⟩,
    calls_atom, ?_⟩
  intro p
  rw [search_eq_through, findCall?_eq_find?]
  cases hfind : f.calls.find? p with
  | none =>
    have hnone : f.calls.any p = false := by simpa using hfind
    refine .inl ⟨by simpa using hfind, ?_, rfl⟩
    rw [through_of_any_eq_false hnone, hnone]
  | some c =>
    obtain ⟨hc, before, after, hcalls, hbefore⟩ := List.find?_eq_some_iff_append.1 hfind
    have hbefore' : ∀ b ∈ before, p b = false := by simpa using hbefore
    have hnone : before.any p = false := by simpa using hbefore'
    refine .inr ⟨before, c, after, hcalls, hbefore', hc, ?_, rfl⟩
    rw [hcalls, through_append, hnone]
    simp [through, hc]

end DesignRecipe.Form
