import DesignRecipe.Token.Rule
import DesignRecipe.Token.Span

/-!
# The race of token kinds

All kinds of tokens are searched over the whole remaining text at once. The token that
starts first wins; of those that start together, the longest; of those, the one whose kind
comes first in `Token.Kind.all`. Text in front of the winner is skipped.
-/
namespace DesignRecipe

/-- Kinds of undivided forms. -/
inductive AtomKind where
  | lineComment
  | blockComment
  | string
  | number
  | symbol
  | identifier
  deriving DecidableEq, Repr

inductive Token.Kind where
  | opener
  | closer
  | atom (kind : AtomKind)
  deriving DecidableEq, Repr

structure Token where
  kind : Token.Kind
  span : Span
  deriving DecidableEq, Repr

namespace Token

/-- The order in which ties are decided. -/
def Kind.all : List Kind :=
  [.atom .lineComment, .atom .blockComment, .opener, .closer, .atom .string, .atom .number,
    .atom .symbol, .atom .identifier]

/-- The block comment that begins at the first opening marker. A marker that is never
closed hides the comments behind it. -/
def firstBlockComment : Text → Option Span
  | [] => none
  | '#' :: '|' :: s => (Rule.blockComment ('#' :: '|' :: s)).map (⟨0, ·⟩)
  | _ :: s => (firstBlockComment s).map (Span.shift 1)

/-- The first token of a kind, wherever it starts. -/
def Kind.search : Kind → Text → Option Span
  | .opener => Span.leftmost (Rule.single isOpener)
  | .closer => Span.leftmost (Rule.single isCloser)
  | .atom .lineComment => Span.leftmost Rule.lineComment
  | .atom .blockComment => firstBlockComment
  | .atom .string => Span.leftmost Rule.string
  | .atom .number => Span.leftmost Rule.number
  | .atom .symbol => Span.leftmost Rule.symbol
  | .atom .identifier => Span.leftmost Rule.identifier

/-- The better of the leader and a token of one more kind. -/
def challenge (code : Text) (leader : Option Token) (kind : Kind) : Option Token :=
  match kind.search code with
  | none => leader
  | some span => if span.yieldsTo (leader.map Token.span) then leader else some ⟨kind, span⟩

/-- The token that wins the race over `code`. -/
def nearest? (code : Text) : Option Token := Kind.all.foldl (challenge code) none

theorem firstBlockComment_length_pos {code : Text} {span : Span}
    (h : firstBlockComment code = some span) : 0 < span.length := by
  fun_induction firstBlockComment code generalizing span with
  | case1 => simp at h
  | case2 s =>
    obtain ⟨n, hn, rfl⟩ := Option.map_eq_some_iff.1 h
    exact Rule.blockComment_pos hn
  | case3 c s _ ih =>
    obtain ⟨t, ht, rfl⟩ := Option.map_eq_some_iff.1 h
    exact (ih ht : 0 < t.length)

theorem Kind.search_length_pos {kind : Kind} {code : Text} {span : Span}
    (h : kind.search code = some span) : 0 < span.length := by
  unfold Kind.search at h
  split at h
  · exact Span.leftmost_length_pos Rule.single_pos h
  · exact Span.leftmost_length_pos Rule.single_pos h
  · exact Span.leftmost_length_pos Rule.lineComment_pos h
  · exact firstBlockComment_length_pos h
  · exact Span.leftmost_length_pos Rule.string_pos h
  · exact Span.leftmost_length_pos Rule.number_pos h
  · exact Span.leftmost_length_pos Rule.symbol_pos h
  · exact Span.leftmost_length_pos Rule.identifier_pos h

theorem Kind.search_nil (kind : Kind) : kind.search [] = none := by
  unfold Kind.search
  split <;> rfl

/-- Who leads after a challenge led before or has just been found. -/
theorem challenge_eq_some {code : Text} {leader : Option Token} {kind : Kind} {t : Token}
    (h : challenge code leader kind = some t) :
    leader = some t ∨ kind.search code = some t.span := by
  unfold challenge at h
  split at h
  · exact .inl h
  · next span hs =>
    split at h
    · exact .inl h
    · cases h; exact .inr hs

theorem foldl_challenge_eq_some {code : Text} {t : Token} {kinds : List Kind} {leader : Option Token}
    (h : kinds.foldl (challenge code) leader = some t) :
    leader = some t ∨ ∃ kind ∈ kinds, kind.search code = some t.span := by
  induction kinds generalizing leader with
  | nil => exact .inl h
  | cons kind kinds ih =>
    rcases ih h with h' | ⟨k, hk, hs⟩
    · exact (challenge_eq_some h').imp id fun hs => ⟨kind, by simp, hs⟩
    · exact .inr ⟨k, by simp [hk], hs⟩

/-- The winner is the first token of its own or another kind. -/
theorem exists_search_of_nearest? {code : Text} {t : Token} (h : nearest? code = some t) :
    ∃ kind : Kind, kind.search code = some t.span := by
  rcases foldl_challenge_eq_some h with h' | ⟨kind, -, hs⟩
  · simp at h'
  · exact ⟨kind, hs⟩

/-- What is left behind the winner is shorter than the text. -/
theorem length_drop_stop_lt {code : Text} {t : Token} (h : nearest? code = some t) :
    (code.drop t.span.stop).length < code.length := by
  obtain ⟨kind, hs⟩ := exists_search_of_nearest? h
  have hpos := Kind.search_length_pos hs
  cases code with
  | nil => simp [Kind.search_nil] at hs
  | cons c s =>
    simp only [List.length_drop, List.length_cons, Span.stop]
    omega

end Token

end DesignRecipe
