import DesignRecipe.Text.Basic

/-!
# Spans

A span is a stretch of a text, by its start and its length. The leftmost span of a rule
begins at the first position where the rule finds a token.
-/
namespace DesignRecipe

structure Span where
  index : Nat
  length : Nat
  deriving DecidableEq, Repr

namespace Span

/-- The position behind the span. -/
def stop (span : Span) : Nat := span.index + span.length

def text (span : Span) (code : Text) : Text := (code.drop span.index).take span.length

/-- The same stretch seen from `n` characters earlier. -/
def shift (n : Nat) (span : Span) : Span := ⟨span.index + n, span.length⟩

/-- `a` is to be kept against the candidate `b`: it starts earlier, or at the same place
and is at least as long. -/
def precedes (a b : Span) : Bool :=
  a.index < b.index || (a.index == b.index && a.length ≥ b.length)

/-- Whether a candidate gives way to the leader, if there is one. -/
def yieldsTo (leader : Option Span) (candidate : Span) : Bool := leader.any (·.precedes candidate)

def leftmost (rule : Text → Option Nat) : Text → Option Span
  | [] => none
  | c :: s =>
    match rule (c :: s) with
    | some n => some ⟨0, n⟩
    | none => (leftmost rule s).map (shift 1)

@[simp] theorem stop_shift (n : Nat) (span : Span) : (span.shift n).stop = span.stop + n := by
  simp only [stop, shift]; omega

theorem leftmost_length_pos {rule : Text → Option Nat} (hrule : ∀ {s n}, rule s = some n → 0 < n)
    {code : Text} {span : Span} (h : leftmost rule code = some span) : 0 < span.length := by
  induction code generalizing span with
  | nil => simp [leftmost] at h
  | cons c s ih =>
    unfold leftmost at h
    split at h
    · next n hn =>
      cases h
      exact hrule hn
    · obtain ⟨t, ht, rfl⟩ := Option.map_eq_some_iff.1 h
      exact (ih ht : 0 < t.length)

end Span

end DesignRecipe
