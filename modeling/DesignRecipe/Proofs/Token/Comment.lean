import DesignRecipe.Token.Rule
import Mathlib.Data.List.Infix

/-!
# Nested comments

A block comment holds comments and characters between its marks. The rule for comments counts how
many are open. What it finds at the front of a text is a comment, every comment at the front is
found, and there is one at most.
-/
namespace DesignRecipe.Token

def openingMark : Text := ['#', '|']

def closingMark : Text := ['|', '#']

mutual

/-- The grammar of comments. -/
inductive IsComment : Text → Prop
  | marks {s : Text} : IsCommentBody s → IsComment (openingMark ++ s ++ closingMark)

/-- Comments, and characters at which no mark begins when the closing mark stands behind. -/
inductive IsCommentBody : Text → Prop
  | nil : IsCommentBody []
  | comment {p s : Text} : IsComment p → IsCommentBody s → IsCommentBody (p ++ s)
  | char {c : Char} {s : Text} : ¬openingMark <+: c :: s ++ closingMark →
    ¬closingMark <+: c :: s ++ closingMark → IsCommentBody s → IsCommentBody (c :: s)

end

variable {c : Char} {s t p : Text} {depth n : ℕ}

theorem closeComments_cons_of_no_mark {depth : Nat} {d : Char} (hopen : ¬(c = '#' ∧ d = '|'))
    (hclose : ¬(c = '|' ∧ d = '#')) :
    Rule.closeComments depth (c :: d :: s) = (Rule.closeComments depth (d :: s)).map (· + 1) := by
  rw [Rule.closeComments]
  · rintro u rfl hd
    exact hopen ⟨rfl, (List.cons.inj hd).1⟩
  · rintro u - rfl hd
    exact hclose ⟨rfl, (List.cons.inj hd).1⟩
  · rintro k u - rfl hd
    exact hclose ⟨rfl, (List.cons.inj hd).1⟩

theorem closeComments_cons (depth : ℕ) (hopen : ¬(c = '#' ∧ s.head? = some '|'))
    (hclose : ¬(c = '|' ∧ s.head? = some '#')) :
    Rule.closeComments depth (c :: s) = (Rule.closeComments depth s).map (· + 1) := by
  cases s with
  | nil => simp [Rule.closeComments]
  | cons d s =>
    apply closeComments_cons_of_no_mark
    · rintro ⟨rfl, rfl⟩
      exact hopen ⟨rfl, rfl⟩
    · rintro ⟨rfl, rfl⟩
      exact hclose ⟨rfl, rfl⟩

theorem pair_prefix_iff {a b : Char} : [a, b] <+: c :: s ↔ c = a ∧ s.head? = some b := by
  rw [List.cons_prefix_cons, List.singleton_prefix_iff_head?_eq_some, eq_comm]

theorem closeComments_of_no_mark (hopen : ¬openingMark <+: c :: s)
    (hclose : ¬closingMark <+: c :: s) :
    Rule.closeComments depth (c :: s) = (Rule.closeComments depth s).map (· + 1) :=
  closeComments_cons depth (mt pair_prefix_iff.2 hopen) (mt pair_prefix_iff.2 hclose)

theorem closeComments_openingMark (depth : ℕ) (t : Text) :
    Rule.closeComments depth (openingMark ++ t) =
      (Rule.closeComments (depth + 1) t).map (· + 2) := by
  rw [openingMark, List.cons_append, List.cons_append, List.nil_append, Rule.closeComments]

theorem closeComments_closingMark (depth : ℕ) (t : Text) :
    Rule.closeComments (depth + 1) (closingMark ++ t) =
      (Rule.closeComments depth t).map (· + 2) := by
  rw [closingMark, List.cons_append, List.cons_append, List.nil_append, Rule.closeComments]

theorem closeComments_last (t : Text) : Rule.closeComments 0 (closingMark ++ t) = some 2 := by
  rw [closingMark, List.cons_append, List.cons_append, List.nil_append, Rule.closeComments]

theorem blockComment_openingMark (t : Text) :
    Rule.blockComment (openingMark ++ t) = (Rule.closeComments 0 t).map (· + 2) := rfl

/-- Whether a mark begins at a character is told by the text through the closing mark. -/
theorem not_prefix_of_body {mark : Text} (hmark : mark.length = 2)
    (h : ¬mark <+: c :: s ++ closingMark) (t : Text) :
    ¬mark <+: c :: (s ++ (closingMark ++ t)) := by
  intro hprefix
  apply h
  have hwhole : c :: s ++ closingMark <+: c :: (s ++ (closingMark ++ t)) := ⟨t, by simp⟩
  exact List.prefix_of_prefix_length_le hprefix hwhole (by simp [hmark, closingMark])

theorem option_map_add_add (found : Option ℕ) (k m : ℕ) :
    (found.map (· + k)).map (· + m) = found.map (· + (m + k)) := by
  rw [Option.map_map]
  congr 1
  funext n
  exact (Nat.add_assoc n k m).trans (congrArg (n + ·) (Nat.add_comm k m))

/-! ### Every comment is found -/

mutual

/-- Behind a comment as many comments are open as in front of it. -/
theorem closeComments_comment {p : Text} (depth : ℕ) (t : Text) :
    IsComment p →
      Rule.closeComments depth (p ++ t) = (Rule.closeComments depth t).map (· + p.length)
  | @IsComment.marks s hs => by
    have hlength : (openingMark ++ s ++ closingMark).length = 2 + s.length + 2 := by
      simp only [List.length_append, openingMark, closingMark, List.length_cons, List.length_nil]
    rw [hlength, List.append_assoc, List.append_assoc, closeComments_openingMark,
      closeComments_body (depth + 1) t hs, closeComments_closingMark, option_map_add_add,
      option_map_add_add, Nat.add_assoc, Nat.add_comm s.length]

theorem closeComments_body {s : Text} (depth : ℕ) (t : Text) :
    IsCommentBody s →
      Rule.closeComments depth (s ++ (closingMark ++ t)) =
        (Rule.closeComments depth (closingMark ++ t)).map (· + s.length)
  | .nil => by simp
  | .comment hp hs => by
    rw [List.append_assoc, closeComments_comment depth _ hp, closeComments_body depth t hs,
      option_map_add_add, List.length_append]
  | .char hopen hclose hs => by
    rw [List.cons_append, closeComments_of_no_mark (not_prefix_of_body rfl hopen t)
      (not_prefix_of_body rfl hclose t), closeComments_body depth t hs, option_map_add_add,
      List.length_cons, Nat.add_comm]

end

/-- A comment at the front of a text is found there with its own length. -/
theorem blockComment_of_isComment (h : IsComment p) (t : Text) :
    Rule.blockComment (p ++ t) = some p.length := by
  cases h with
  | @marks s hs =>
    rw [List.append_assoc, List.append_assoc, blockComment_openingMark, closeComments_body 0 t hs,
      closeComments_last]
    simp [openingMark, closingMark, Nat.add_comm, Nat.add_left_comm]

/-! ### What is found is a comment -/

/-- The text closes `depth + 1` comments. -/
inductive Closes : ℕ → Text → Prop
  | last {s : Text} : IsCommentBody s → Closes 0 (s ++ closingMark)
  | outer {depth : ℕ} {s t : Text} :
    IsCommentBody s → Closes depth t → Closes (depth + 1) (s ++ closingMark ++ t)

theorem Closes.comment (hp : IsComment p) (h : Closes depth t) : Closes depth (p ++ t) := by
  cases h with
  | last hs =>
    rw [← List.append_assoc]
    exact .last (.comment hp hs)
  | outer hs h =>
    rw [← List.append_assoc, ← List.append_assoc]
    exact .outer (.comment hp hs) h

theorem Closes.char (hopen : ¬openingMark <+: c :: t) (hclose : ¬closingMark <+: c :: t)
    (h : Closes depth t) : Closes depth (c :: t) := by
  cases h with
  | last hs => exact .last (.char hopen hclose hs)
  | @outer depth s t hs h =>
    have hfront : c :: s ++ closingMark <+: c :: (s ++ closingMark ++ t) := ⟨t, by simp⟩
    have hbody : IsCommentBody (c :: s) :=
      .char (fun hmark => hopen (hmark.trans hfront)) (fun hmark => hclose (hmark.trans hfront)) hs
    exact .outer hbody h

/-- A comment is made of the marks and what stands between them. -/
theorem Closes.comment_of_succ (h : Closes (depth + 1) t) : Closes depth (openingMark ++ t) := by
  cases h with
  | outer hs h =>
    rw [← List.append_assoc, ← List.append_assoc]
    exact .comment (.marks hs) h

theorem closes_of_closeComments (h : Rule.closeComments depth s = some n) :
    Closes depth (s.take n) := by
  fun_induction Rule.closeComments depth s generalizing n with
  | case1 => cases h
  | case2 depth s ih =>
    obtain ⟨m, hm, rfl⟩ := Option.map_eq_some_iff.1 h
    exact (ih hm).comment_of_succ
  | case3 s =>
    cases h
    exact .last .nil
  | case4 depth s ih =>
    obtain ⟨m, hm, rfl⟩ := Option.map_eq_some_iff.1 h
    exact .outer .nil (ih hm)
  | case5 depth c s hopen hclose hinner ih =>
    obtain ⟨m, hm, rfl⟩ := Option.map_eq_some_iff.1 h
    have hfront : c :: s.take m <+: c :: s := List.cons_prefix_cons.2 ⟨rfl, List.take_prefix m s⟩
    refine (ih hm).char ?_ ?_
    · intro hmark
      obtain ⟨t, ht⟩ := hmark.trans hfront
      cases ht
      exact hopen t rfl rfl
    · intro hmark
      obtain ⟨t, ht⟩ := hmark.trans hfront
      cases ht
      cases depth with
      | zero => exact hclose t rfl rfl rfl
      | succ depth => exact hinner depth t rfl rfl rfl

theorem isComment_of_blockComment (h : Rule.blockComment s = some n) : IsComment (s.take n) := by
  unfold Rule.blockComment at h
  split at h
  · next s =>
    obtain ⟨m, hm, rfl⟩ := Option.map_eq_some_iff.1 h
    have hcloses := closes_of_closeComments hm
    generalize htake : s.take m = t at hcloses
    cases hcloses with
    | last hs =>
      rw [List.take_succ_cons, List.take_succ_cons, htake]
      exact .marks hs
  · cases h

/-- No text has two comments at its front. -/
theorem IsComment.eq_of_prefix {q : Text} (hp : IsComment p) (hq : IsComment q) (hps : p <+: s)
    (hqs : q <+: s) : p = q := by
  obtain ⟨t, rfl⟩ := hps
  obtain ⟨u, hu⟩ := hqs
  have hfound := blockComment_of_isComment hq u
  rw [hu, blockComment_of_isComment hp, Option.some.injEq] at hfound
  exact (List.append_inj hu.symm hfound).1

/-! ### The comment at the front -/

theorem isComment_iff : IsComment s ↔ Rule.blockComment s = some s.length := by
  constructor
  · intro h
    simpa using blockComment_of_isComment h []
  · intro h
    simpa using isComment_of_blockComment h

instance : DecidablePred IsComment := fun _ => decidable_of_iff _ isComment_iff.symm

/-- The length of the comment that the text begins with, if it begins with one. -/
def commentLength? (s : Text) : Option ℕ :=
  (s.inits.find? fun p => decide (IsComment p)).map List.length

theorem commentLength?_eq (s : Text) : commentLength? s = Rule.blockComment s := by
  rw [commentLength?]
  cases hfound : s.inits.find? fun p => decide (IsComment p) with
  | some p =>
    have hp : IsComment p := by simpa using List.find?_some hfound
    obtain ⟨t, rfl⟩ := (List.mem_inits p s).1 (List.mem_of_find?_eq_some hfound)
    rw [blockComment_of_isComment hp, Option.map_some]
  | none =>
    rw [Option.map_none, eq_comm, Option.eq_none_iff_forall_ne_some]
    intro n hn
    have hmem : s.take n ∈ s.inits := (List.mem_inits _ s).2 (List.take_prefix n s)
    have hnot := List.find?_eq_none.1 hfound _ hmem
    exact hnot (by simpa using isComment_of_blockComment hn)

end DesignRecipe.Token
