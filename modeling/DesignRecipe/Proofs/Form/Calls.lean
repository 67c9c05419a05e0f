import DesignRecipe.Form.Call
import DesignRecipe.Proofs.Form.Within
import Mathlib.Tactic.SplitIfs

/-!
# Finding calls

A search meets the calls of a form in their order and ends behind the first one that satisfies
its test. So it finds what a look through the list of all calls finds, and a call of a function is
found exactly if one stands in the form on some level.
-/
namespace DesignRecipe.Form

/-- The calls through the first one that satisfies `p`. -/
def through (p : Call → Bool) : List Call → List Call
  | [] => []
  | call :: more => if p call then [call] else call :: through p more

section through

variable {p : Call → Bool}

theorem through_of_any_eq_false {cs : List Call} (h : cs.any p = false) : through p cs = cs := by
  induction cs with
  | nil => rfl
  | cons call cs ih =>
    rw [List.any_cons, Bool.or_eq_false_iff] at h
    rw [through, h.1, if_neg Bool.false_ne_true, ih h.2]

theorem through_append (cs ds : List Call) :
    through p (cs ++ ds) = if cs.any p then through p cs else cs ++ through p ds := by
  induction cs with
  | nil => simp
  | cons call cs ih =>
    by_cases hcall : p call = true
    · simp [through, hcall]
    · by_cases hmore : cs.any p = true <;> simp [through, hcall, hmore, ih]

theorem getLast?_through {cs : List Call} (h : cs.any p = true) :
    (through p cs).getLast? = cs.find? p := by
  induction cs with
  | nil => simp at h
  | cons call cs ih =>
    by_cases hcall : p call = true
    · simp [through, hcall]
    · have hmore : cs.any p = true := by simpa [hcall] using h
      have hsome : (cs.find? p).isSome = true := List.find?_isSome.2 (by simpa using hmore)
      obtain ⟨found, hfound⟩ := Option.isSome_iff_exists.1 hsome
      rw [through, if_neg hcall, List.getLast?_cons, List.find?_cons_of_neg hcall, ih hmore, hfound]
      rfl

end through

/-! ### The list of all calls -/

mutual

theorem search_never (f : Form) : (f.search fun _ => false).2 = false := by
  cases f with
  | atom kind text => rfl
  | list items =>
    have hitems := searchAll_never items
    rw [search]
    split
    · exact hitems
    · simpa using hitems

theorem searchAll_never (items : List Form) : (searchAll (fun _ => false) items).2 = false := by
  cases items with
  | nil => rfl
  | cons f items =>
    have hf := search_never f
    have hitems := searchAll_never items
    simp [searchAll, hf, hitems]

end

theorem searchAll_never_eq_flatMap (items : List Form) :
    (searchAll (fun _ => false) items).1 = items.flatMap calls := by
  induction items with
  | nil => rfl
  | cons f items ih =>
    have hf := search_never f
    simp [searchAll, hf, ih, calls]

@[simp] theorem calls_atom (kind : AtomKind) (text : Text) : (atom kind text).calls = [] := rfl

/-- A call stands before the calls inside it. -/
@[simp] theorem calls_list (items : List Form) :
    (list items).calls = (Call.ofItems? items).toList ++ items.flatMap calls := by
  rw [← searchAll_never_eq_flatMap, calls, search]
  cases Call.ofItems? items <;> simp

mutual

/-- A search gives the calls through the first that satisfies its test, and tells whether there is
one. -/
theorem search_eq_through (p : Call → Bool) (f : Form) :
    f.search p = (through p f.calls, f.calls.any p) := by
  cases f with
  | atom kind text => rfl
  | list items =>
    have hitems := searchAll_eq_through p items
    rw [search, calls_list]
    cases Call.ofItems? items with
    | none => simpa using hitems
    | some call =>
      by_cases hcall : p call = true <;> simp [through, hcall, hitems]

theorem searchAll_eq_through (p : Call → Bool) (items : List Form) :
    searchAll p items = (through p (items.flatMap calls), (items.flatMap calls).any p) := by
  cases items with
  | nil => rfl
  | cons f items =>
    have hf := search_eq_through p f
    have hitems := searchAll_eq_through p items
    rw [searchAll, hf, hitems, List.flatMap_cons, through_append, List.any_append]
    cases hfound : f.calls.any p with
    | true => rfl
    | false =>
      simp only [Bool.false_eq_true, if_false, through_of_any_eq_false hfound, Bool.false_or]

end

theorem findCall?_eq_find? (p : Call → Bool) (f : Form) : f.findCall? p = f.calls.find? p := by
  rw [findCall?, search_eq_through]
  by_cases h : f.calls.any p = true
  · simpa [h] using getLast?_through h
  · have hnone : f.calls.find? p = none := by simpa using h
    simp [h, hnone]

/-- A function is called in a form if some call in the form names it. -/
theorem callsFunction_eq_any (name : Text) (f : Form) :
    f.callsFunction name = f.calls.any fun call => call.name == name := by
  rw [callsFunction, findCall?_eq_find?, Bool.eq_iff_iff, List.find?_isSome, List.any_eq_true]

/-! ### Where calls stand -/

theorem items_of_ofItems? {items : List Form} {call : Call} (h : Call.ofItems? items = some call) :
    call.items = items := by
  cases items with
  | nil => cases h
  | cons head rest =>
    obtain ⟨name, -, rfl⟩ := Option.map_eq_some_iff.1 h
    rfl

theorem eq_atom_of_name? {f : Form} {name : Text} (h : f.name? = some name) :
    f = .atom .identifier name := by
  unfold name? at h
  split at h
  · rw [Option.some.inj h]
  · cases h

/-- The form is a call of the function, or such a call stands in it. -/
def HasCall (name : Text) (f : Form) : Prop :=
  ∃ rest, f = .list (.atom .identifier name :: rest) ∨
    Within (.list (.atom .identifier name :: rest)) f

section calls

variable {name : Text} {items : List Form}

theorem hasCall_list_iff :
    (list items).HasCall name ↔
      (∃ rest, items = .atom .identifier name :: rest) ∨ ∃ f ∈ items, f.HasCall name := by
  constructor
  · rintro ⟨rest, heq | hwithin⟩
    · exact .inl ⟨rest, list.inj heq⟩
    · obtain ⟨f, hf, hcall⟩ := within_list_iff.1 hwithin
      exact .inr ⟨f, hf, rest, hcall⟩
  · rintro (⟨rest, rfl⟩ | ⟨f, hf, rest, hcall⟩)
    · exact ⟨rest, .inl rfl⟩
    · exact ⟨rest, .inr (within_list_iff.2 ⟨f, hf, hcall⟩)⟩

theorem exists_ofItems?_iff :
    (∃ call, Call.ofItems? items = some call ∧ call.name = name) ↔
      ∃ rest, items = .atom .identifier name :: rest := by
  constructor
  · rintro ⟨call, hcall, rfl⟩
    cases items with
    | nil => cases hcall
    | cons head rest =>
      obtain ⟨found, hfound, rfl⟩ := Option.map_eq_some_iff.1 hcall
      exact ⟨rest, by rw [eq_atom_of_name? hfound]⟩
  · rintro ⟨rest, rfl⟩
    exact ⟨⟨name, _⟩, rfl, rfl⟩

mutual

theorem exists_mem_calls_iff (f : Form) :
    (∃ call ∈ f.calls, call.name = name) ↔ f.HasCall name := by
  cases f with
  | atom kind text => simp [HasCall]
  | list items =>
    rw [hasCall_list_iff, ← exists_ofItems?_iff, ← exists_mem_flatMap_calls_iff, calls_list]
    simp only [List.mem_append, or_and_right, exists_or, Option.mem_toList]

theorem exists_mem_flatMap_calls_iff (items : List Form) :
    (∃ call ∈ items.flatMap calls, call.name = name) ↔ ∃ f ∈ items, f.HasCall name := by
  cases items with
  | nil => simp
  | cons f items =>
    have hf := exists_mem_calls_iff f
    have hitems := exists_mem_flatMap_calls_iff items
    simp only [List.flatMap_cons, List.mem_append, List.mem_cons, or_and_right, exists_or,
      exists_eq_left, hf, hitems]

end

end calls

theorem callsFunction_iff {name : Text} {f : Form} :
    f.callsFunction name = true ↔ f.HasCall name := by
  rw [callsFunction_eq_any, ← exists_mem_calls_iff, List.any_eq_true]
  simp only [beq_iff_eq]

instance (name : Text) (f : Form) : Decidable (f.HasCall name) :=
  decidable_of_iff _ callsFunction_iff

theorem decide_hasCall (name : Text) (f : Form) :
    decide (f.HasCall name) = f.callsFunction name := by
  rw [Bool.eq_iff_iff, decide_eq_true_iff, callsFunction_iff]

end DesignRecipe.Form

namespace DesignRecipe.Call

/-- Only calls of `local` have definitions, which are a list among their items. -/
theorem of_localForms? {call : Call} {forms : List Form} (h : call.localForms? = some forms) :
    call.name = "local".toList ∧ .list forms ∈ call.items := by
  unfold localForms? at h
  split_ifs at h with hname
  split at h
  · next head items more hitems =>
    cases h
    exact ⟨hname, by simp [hitems]⟩
  · cases h

end DesignRecipe.Call
