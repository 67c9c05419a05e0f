import DesignRecipe.Proofs.Form.AtomText
import DesignRecipe.Proofs.Form.RoundTrip
import DesignRecipe.Proofs.Recipe.Inspection
import DesignRecipe.Proofs.Recipe.Signature

/-!
# Forms and line ends

A text with unified line ends is read in the same way, as forms with unified line ends in their
strings and block comments. In the forms that are read line ends stand nowhere else, so to unify the
line ends of a rendered form is to render the form with unified line ends.
-/
namespace DesignRecipe

open Token Text

/-! ### Reading -/

def Mark.kind : Mark → Kind
  | .opener => .opener
  | .closer => .closer
  | .atom kind _ => .atom kind

namespace Lexeme

variable {xs ys : List Lexeme}

theorem kind_mark (x : Lexeme) : x.mark.kind = x.kind := by
  unfold mark
  split <;> simp_all [Mark.kind]

theorem openers_eq (xs : List Lexeme) : openers xs = (xs.map kind).countP (· == .opener) := by
  rw [List.countP_map]
  rfl

theorem closers_eq (xs : List Lexeme) : closers xs = (xs.map kind).countP (· == .closer) := by
  rw [List.countP_map]
  rfl

/-- Whether brackets are nested is told by the kinds of tokens. -/
theorem Nested.of_kinds (h : Nested xs) (hkinds : ys.map kind = xs.map kind) : Nested ys := by
  intro p hp
  have htake : p.map kind = (xs.take p.length).map kind := by
    rw [List.map_take, ← hkinds, ← List.map_take, ← List.prefix_iff_eq_take.1 hp]
  have hle := h (xs.take p.length) (List.take_prefix _ _)
  rwa [closers_eq, openers_eq, ← htake, ← closers_eq, ← openers_eq] at hle

end Lexeme

namespace Token

theorem map_kind_stream_unifyLineEnds (s : Text) :
    (stream (unifyLineEnds s)).map Lexeme.kind = (stream s).map Lexeme.kind := by
  have hkind (xs : List Lexeme) : (xs.map Lexeme.mark).map Mark.kind = xs.map Lexeme.kind := by
    rw [List.map_map]
    exact List.map_congr_left fun x _ => x.kind_mark
  rw [← hkind, map_mark_stream_unifyLineEnds, List.map_map, ← hkind]
  apply List.map_congr_left
  intro m _
  cases m <;> rfl

end Token

namespace Reader

open Lexeme Form

theorem status_read_unifyLineEnds (code : Text) :
    (read (unifyLineEnds code)).status = (read code).status := by
  have hkinds := map_kind_stream_unifyLineEnds code
  have hopeners : openers (stream (unifyLineEnds code)) = openers (stream code) := by
    rw [openers_eq, openers_eq, hkinds]
  have hclosers : closers (stream (unifyLineEnds code)) = closers (stream code) := by
    rw [closers_eq, closers_eq, hkinds]
  have hnested : Nested (stream (unifyLineEnds code)) ↔ Nested (stream code) :=
    ⟨fun h => h.of_kinds hkinds.symm, fun h => h.of_kinds hkinds⟩
  obtain ⟨hstray, hcomplete, hunclosed⟩ := status_read code
  obtain ⟨hstray', hcomplete', hunclosed'⟩ := status_read (unifyLineEnds code)
  rw [hnested, ← hstray] at hstray'
  rw [hnested, hopeners, hclosers, ← hcomplete] at hcomplete'
  rw [hnested, hopeners, hclosers, ← hunclosed] at hunclosed'
  cases hstatus : (read code).status with
  | reading => exact absurd hstatus (status_run_ne _)
  | complete => exact hcomplete'.2 hstatus
  | unclosed => exact hunclosed'.2 hstatus
  | strayCloser => exact hstray'.2 hstatus

theorem forms_read_unifyLineEnds {code : Text} (h : (read code).status = .complete) :
    (read (unifyLineEnds code)).forms = (read code).forms.map (mapText unifyLineEnds) := by
  have hmarks : (stream (unifyLineEnds code)).map mark =
      writeAll ((read code).forms.map (mapText unifyLineEnds)) := by
    rw [map_mark_stream_unifyLineEnds, writeAll_mapText, writeAll_forms_of_complete h]
  exact (read_eq_forms_iff.2 hmarks).2

end Reader

/-! ### Rendering -/

namespace Form

/-- Carriage returns stand in strings and block comments only. -/
def Tidy (f : Form) : Prop :=
  ∀ kind text, .atom kind text ∈ f.write → kind.spansLines = false → '\r' ∉ text

variable {f : Form} {items : List Form} {name : Text}

theorem tidy_list_iff : (list items).Tidy ↔ ∀ f ∈ items, f.Tidy := by
  simp only [Tidy, write, writeAll_eq_flatMap, List.mem_cons, List.mem_append, List.mem_flatMap,
    reduceCtorEq, List.not_mem_nil, or_false, false_or]
  constructor
  · intro h f hf kind text hmem
    exact h kind text ⟨f, hf, hmem⟩
  · rintro h kind text ⟨f, hf, hmem⟩
    exact h f hf kind text hmem

theorem tidy_of_mem_forms {code : Text} (h : (Reader.read code).status = .complete)
    (hf : f ∈ (Reader.read code).forms) : f.Tidy := by
  intro kind text hmem hkind
  have hmark : .atom kind text ∈ (stream code).map Lexeme.mark := by
    rw [← Reader.writeAll_forms_of_complete h, writeAll_eq_flatMap]
    exact List.mem_flatMap.2 ⟨f, hf, hmem⟩
  exact (Mark.allSpelled_stream code kind text hmark).not_mem_return hkind

theorem exists_name?_of_mapM_name? {parameters : List Text}
    (h : items.mapM name? = some (name :: parameters)) : ∃ f ∈ items, f.name? = some name := by
  cases items with
  | nil => cases h
  | cons f items =>
    simp only [List.mapM_cons, Option.bind_eq_bind, Option.bind_eq_some_iff, Option.pure_def,
      Option.some.injEq, List.cons.injEq] at h
    obtain ⟨_, hf, _, _, rfl, _⟩ := h
    exact ⟨f, List.mem_cons_self, hf⟩

theorem Tidy.not_mem_name (h : f.Tidy) (hname : f.name? = some name) : '\r' ∉ name := by
  rw [eq_atom_of_name? hname] at h
  exact h .identifier name (List.mem_singleton_self _) rfl

mutual

/-- Line ends may be unified before or after rendering. -/
theorem render_mapText (f : Form) (h : f.Tidy) :
    (f.mapText unifyLineEnds).render = unifyLineEnds f.render := by
  cases f with
  | atom kind text =>
    rw [mapText_atom, render_atom, render_atom, AtomKind.mapText]
    split_ifs with hkind
    · rfl
    · have hnot := h kind text (List.mem_singleton_self _) (by simpa using hkind)
      exact (unifyLineEnds_of_not_mem hnot).symm
  | list items =>
    have hcloser : unifyLineEnds [')'] = [')'] := by decide
    rw [mapText_list, render_list, render_list, List.map_map,
      map_render_mapText items (tidy_list_iff.1 h), List.cons_append, List.cons_append,
      unifyLineEnds_cons (by decide), unifyLineEnds_append, unifyLineEnds_intercalate, hcloser]
    -- no line feed stands behind the items
    simp

theorem map_render_mapText (items : List Form) (h : ∀ f ∈ items, f.Tidy) :
    items.map (render ∘ mapText unifyLineEnds) = (items.map render).map unifyLineEnds := by
  cases items with
  | nil => rfl
  | cons f items =>
    obtain ⟨hf, hitems⟩ := List.forall_mem_cons.1 h
    rw [List.map_cons, List.map_cons, List.map_cons, Function.comp_apply, render_mapText f hf,
      map_render_mapText items hitems]

end

end Form

/-! ### Definitions and calls -/

namespace Form

mutual

theorem tidy_of_mem_calls {call : Call} (f : Form) (h : f.Tidy) (hcall : call ∈ f.calls) :
    ∀ g ∈ call.items, g.Tidy := by
  cases f with
  | atom kind text => simp at hcall
  | list items =>
    have hitems := tidy_list_iff.1 h
    rw [calls_list, List.mem_append, Option.mem_toList] at hcall
    rcases hcall with hself | hinside
    · rwa [items_of_ofItems? hself]
    · exact tidy_of_mem_flatMap_calls items hitems hinside

theorem tidy_of_mem_flatMap_calls {call : Call} (items : List Form) (h : ∀ f ∈ items, f.Tidy)
    (hcall : call ∈ items.flatMap calls) : ∀ g ∈ call.items, g.Tidy := by
  cases items with
  | nil => simp at hcall
  | cons f items =>
    obtain ⟨hf, hitems⟩ := List.forall_mem_cons.1 h
    rw [List.flatMap_cons, List.mem_append] at hcall
    rcases hcall with hcall | hcall
    · exact tidy_of_mem_calls f hf hcall
    · exact tidy_of_mem_flatMap_calls items hitems hcall

end

end Form

namespace Definition

variable {f : Form} {d : Definition}

theorem tidy_of_ofForm? (hf : f.Tidy) (h : ofForm? f = some d) : '\r' ∉ d.name ∧ d.body.Tidy := by
  unfold ofForm? at h
  split at h
  · next head header body =>
    split_ifs at h
    split at h
    · next name parameters hnames =>
      cases h
      have hitems := Form.tidy_list_iff.1 hf
      have hheader : ∀ f ∈ header, f.Tidy := Form.tidy_list_iff.1 (hitems _ (by simp))
      refine ⟨?_, hitems body (by simp)⟩
      obtain ⟨g, hg, hname⟩ := Form.exists_name?_of_mapM_name? hnames
      exact (hheader g hg).not_mem_name hname
    · cases h
  · cases h

theorem tidy_of_mem_localForms (hd : d.body.Tidy) {forms : List Form} (h : forms ∈ d.localForms) :
    ∀ g ∈ forms, g.Tidy := by
  obtain ⟨call, hcall, hlocal⟩ := mem_localForms_iff.1 h
  have hitems := Form.tidy_of_mem_calls d.body hd hcall
  exact Form.tidy_list_iff.1 (hitems _ (Call.of_localForms? hlocal).2)

end Definition

end DesignRecipe
