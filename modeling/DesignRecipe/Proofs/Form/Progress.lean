import DesignRecipe.Proofs.Form.Writing

/-!
# The progress of a reader

A reader that is under way has consumed an initial part of the token stream, and everything it
holds follows from that part: the text left, the forms, and how many lists are open. A step
consumes one more token or ends the reading, and each way to end is told by the tokens.
-/
namespace DesignRecipe

namespace Lexeme

def openers (xs : List Lexeme) : Nat := xs.countP (·.kind == .opener)

def closers (xs : List Lexeme) : Nat := xs.countP (·.kind == .closer)

/-- No initial part closes more lists than it opens. -/
def Nested (xs : List Lexeme) : Prop := ∀ p, p <+: xs → closers p ≤ openers p

@[simp] theorem openers_append (xs ys : List Lexeme) :
    openers (xs ++ ys) = openers xs + openers ys := List.countP_append

@[simp] theorem closers_append (xs ys : List Lexeme) :
    closers (xs ++ ys) = closers xs + closers ys := List.countP_append

theorem openers_singleton (x : Lexeme) : openers [x] = if x.kind = .opener then 1 else 0 := by
  simp [openers, List.countP_cons]

theorem closers_singleton (x : Lexeme) : closers [x] = if x.kind = .closer then 1 else 0 := by
  simp [closers, List.countP_cons]

theorem mark_eq_opener_iff {x : Lexeme} : x.mark = .opener ↔ x.kind = .opener := by
  unfold mark
  split <;> simp_all

theorem mark_eq_closer_iff {x : Lexeme} : x.mark = .closer ↔ x.kind = .closer := by
  unfold mark
  split <;> simp_all

theorem mark_eq_atom_iff {x : Lexeme} {kind : AtomKind} {text : Text} :
    x.mark = .atom kind text ↔ x.kind = .atom kind ∧ x.text = text := by
  unfold mark
  split <;> simp_all

theorem nested_nil : Nested [] := by
  intro p hp
  rw [List.prefix_nil.1 hp]
  exact le_rfl

theorem Nested.concat {xs : List Lexeme} {x : Lexeme} (h : Nested xs)
    (hx : closers (xs ++ [x]) ≤ openers (xs ++ [x])) : Nested (xs ++ [x]) := by
  intro p hp
  rcases List.prefix_concat_iff.1 hp with rfl | hp
  · exact hx
  · exact h p hp

end Lexeme

namespace Reader

open Token Lexeme Form

/-- What a reader does with a token that it can consume. -/
def consume (r : Reader) (m : Mark) (rest : Text) : Reader :=
  match m, r.enclosing with
  | .opener, enclosing => { r with rest, siblings := [], enclosing := r.siblings :: enclosing }
  | .closer, before :: enclosing =>
    { r with rest, siblings := before ++ [.list r.siblings], enclosing }
  | .closer, [] => r
  | .atom k text, _ => { r with rest, siblings := r.siblings ++ [.atom k text] }

section consume

variable {r : Reader} {m : Mark} {rest : Text}

@[simp] theorem status_consume : (r.consume m rest).status = r.status := by
  unfold consume
  split <;> rfl

theorem rest_consume (hm : m = .closer → r.enclosing ≠ []) : (r.consume m rest).rest = rest := by
  unfold consume
  split <;> simp_all

/-- Writing keeps pace with reading, token by token. -/
theorem written_consume (hm : m = .closer → r.enclosing ≠ []) :
    (r.consume m rest).written = r.written ++ [m] := by
  rw [written_eq, written_eq]
  unfold consume
  split
  · simp [writeAll]
  · next before enclosing henclosing => simp [henclosing, writeAll, write]
  · next henclosing => exact absurd henclosing (hm rfl)
  · simp [writeAll, write]

theorem length_enclosing_consume (hm : m = .closer → r.enclosing ≠ []) :
    (r.consume m rest).enclosing.length + (if m = .closer then 1 else 0) =
      r.enclosing.length + (if m = .opener then 1 else 0) := by
  unfold consume
  split
  · simp
  · next before enclosing henclosing => simp [henclosing]
  · next henclosing => exact absurd henclosing (hm rfl)
  · simp

end consume

/-- The next token closes a list and none is open. -/
def Stray (r : Reader) : Prop :=
  ∃ x xs, stream r.rest = x :: xs ∧ x.kind = .closer ∧ r.enclosing = []

theorem exists_of_stream_cons {code : Text} {x : Lexeme} {xs : List Lexeme}
    (h : stream code = x :: xs) :
    ∃ t, nearest? code = some t ∧ x = ofToken code t ∧ xs = stream (code.drop t.span.stop) := by
  cases ht : nearest? code with
  | none => simp [stream_of_none ht] at h
  | some t =>
    rw [stream_of_nearest? ht] at h
    obtain ⟨hx, hxs⟩ := List.cons.inj h
    exact ⟨t, rfl, hx.symm, hxs.symm⟩

theorem step_of_stream_nil {r : Reader} (h : stream r.rest = []) :
    r.step = { r with status := if r.enclosing.isEmpty then .complete else .unclosed } := by
  cases ht : nearest? r.rest with
  | none => simp [step, ht]
  | some t => simp [stream_of_nearest? ht] at h

theorem step_of_stray {r : Reader} (h : r.Stray) : r.step = { r with status := .strayCloser } := by
  obtain ⟨x, xs, hstream, hkind, henclosing⟩ := h
  obtain ⟨t, ht, rfl, -⟩ := exists_of_stream_cons hstream
  have hkind' : t.kind = .closer := hkind
  simp [step, ht, hkind', henclosing]

theorem step_of_stream_cons {r : Reader} {x : Lexeme} {xs : List Lexeme}
    (h : stream r.rest = x :: xs) (hstray : ¬r.Stray) :
    ∃ rest, r.rest = x.whole ++ rest ∧ stream rest = xs ∧ r.step = r.consume x.mark rest := by
  obtain ⟨t, ht, rfl, rfl⟩ := exists_of_stream_cons h
  refine ⟨r.rest.drop t.span.stop, (whole_ofToken r.rest t).symm, rfl, ?_⟩
  unfold step
  rw [ht]
  cases hkind : t.kind with
  | opener => simp [consume, ofToken, mark, hkind]
  | atom k => simp [consume, ofToken, mark, hkind]
  | closer =>
    cases henclosing : r.enclosing with
    | nil => exact absurd ⟨_, _, h, hkind, henclosing⟩ hstray
    | cons before enclosing => simp [consume, ofToken, mark, hkind, henclosing]

/-- The reader has consumed the tokens `xs` of the text and nothing else. -/
structure HasRead (code : Text) (xs : List Lexeme) (r : Reader) : Prop where
  reading : r.status = .reading
  stream_eq : stream code = xs ++ stream r.rest
  text_eq : code = xs.flatMap whole ++ r.rest
  written_eq : r.written = xs.map mark
  depth_eq : openers xs = closers xs + r.enclosing.length
  nested : Nested xs

theorem hasRead_ofText (code : Text) : HasRead code [] (ofText code) :=
  ⟨rfl, rfl, rfl, rfl, rfl, nested_nil⟩

variable {code : Text} {xs : List Lexeme} {r : Reader}

/-- A step that does not end the reading consumes the next token. -/
theorem HasRead.step {x : Lexeme} {ys : List Lexeme} (h : HasRead code xs r)
    (hx : stream r.rest = x :: ys) (hstray : ¬r.Stray) : HasRead code (xs ++ [x]) r.step := by
  obtain ⟨rest, hrest, rfl, hstep⟩ := step_of_stream_cons hx hstray
  have hm : x.mark = .closer → r.enclosing ≠ [] := by
    intro hclose htop
    apply hstray
    exact ⟨x, stream rest, hx, mark_eq_closer_iff.1 hclose, htop⟩
  have hdepth : openers (xs ++ [x]) = closers (xs ++ [x]) + r.step.enclosing.length := by
    have hold := h.depth_eq
    have hnew : (r.consume x.mark rest).enclosing.length + _ = _ := length_enclosing_consume hm
    simp only [mark_eq_opener_iff, mark_eq_closer_iff] at hnew
    rw [hstep, openers_append, closers_append, openers_singleton, closers_singleton]
    omega
  refine ⟨?_, ?_, ?_, ?_, hdepth, h.nested.concat (by omega)⟩
  · rw [hstep, status_consume, h.reading]
  · rw [hstep, rest_consume hm, List.append_assoc, List.singleton_append, ← hx, h.stream_eq]
  · rw [hstep, rest_consume hm, List.flatMap_append, List.flatMap_singleton, List.append_assoc,
      ← hrest, ← h.text_eq]
  · rw [hstep, written_consume hm, h.written_eq, List.map_append, List.map_singleton]

/-- The reading ends with the next step. -/
def AtEnd (r : Reader) : Prop := stream r.rest = [] ∨ r.Stray

theorem HasRead.step_or_atEnd (h : HasRead code xs r) :
    r.AtEnd ∨ ∃ x, HasRead code (xs ++ [x]) r.step := by
  by_cases hstray : r.Stray
  · exact .inl (.inr hstray)
  · cases hx : stream r.rest with
    | nil => exact .inl (.inl hx)
    | cons x ys => exact .inr ⟨x, h.step hx hstray⟩

theorem status_step_of_atEnd (h : r.AtEnd) : r.step.status ≠ .reading := by
  rcases h with hnil | hstray
  · rw [step_of_stream_nil hnil]
    dsimp only
    split_ifs <;> simp
  · simp [step_of_stray hstray]

/-- The tokens that a reader takes on its way to the end. -/
def consumed (r : Reader) : List Lexeme :=
  if h : r.status = .reading ∧ r.step.status = .reading then
    have := fuel_step_lt h.1
    (nearest? r.rest).toList.map (ofToken r.rest) ++ consumed r.step
  else []
termination_by r.fuel

theorem HasRead.exists_consumed (h : HasRead code xs r) :
    ∃ s, HasRead code (xs ++ r.consumed) s ∧ s.AtEnd ∧ r.run = s.step := by
  fun_induction consumed r generalizing xs with
  | case1 r hboth _ ih =>
    have hend : ¬r.AtEnd := fun hend => status_step_of_atEnd hend hboth.2
    cases hx : stream r.rest with
    | nil => exact absurd (.inl hx) hend
    | cons x ys =>
      obtain ⟨t, ht, rfl, -⟩ := exists_of_stream_cons hx
      obtain ⟨s, hs, hlast, hrun⟩ := ih (h.step hx (mt .inr hend))
      refine ⟨s, ?_, hlast, by rw [← run_step hboth.1, hrun]⟩
      simpa [ht] using hs
  | case2 r hboth =>
    refine ⟨r, by simpa using h, ?_, ?_⟩
    · rcases h.step_or_atEnd with hend | ⟨x, hx⟩
      · exact hend
      · exact absurd ⟨h.reading, hx.reading⟩ hboth
    · rw [← run_step h.reading, run_of_ended fun hstep => hboth ⟨h.reading, hstep⟩]

/-- Every reading comes to a last step. -/
theorem HasRead.exists_run (h : HasRead code xs r) :
    ∃ ys s, HasRead code (xs ++ ys) s ∧ s.AtEnd ∧ r.run = s.step :=
  ⟨r.consumed, h.exists_consumed⟩

/-- A whole reading: all tokens but the one that ends it have been consumed before. -/
theorem exists_read (code : Text) :
    ∃ xs r, HasRead code xs r ∧ r.AtEnd ∧ read code = r.step := by
  exact (hasRead_ofText code).exists_run

end Reader

end DesignRecipe
