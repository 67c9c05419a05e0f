import DesignRecipe.Token.Race
import DesignRecipe.Proofs.Token.Comment
import DesignRecipe.Proofs.Token.Number

/-!
# One pass over the text

The race searches for every kind of token over the whole remaining text. Its winner is the
token at which a walk from left to right stops first: what begins at a position is decided
by the characters there, and no kind can win from inside a token of another kind. One fact
about the past is needed, whether the mark of a block comment has been passed.
-/
namespace DesignRecipe.Token

/-- The mark of a block comment stands at the front. -/
def opensComment : Text → Bool
  | '#' :: '|' :: _ => true
  | _ => false

theorem opensComment_cons_iff {c : Char} {s : Text} :
    opensComment (c :: s) = true ↔ c = '#' ∧ s.head? = some '|' := by
  unfold opensComment
  split
  · next t ht =>
    cases ht
    simp
  · next hnot =>
    simp only [Bool.false_eq_true, false_iff, not_and]
    rintro rfl hs
    obtain ⟨t, rfl⟩ := List.head?_eq_some_iff.1 hs
    exact hnot t rfl

/-- The characters through the quote that closes a string, met one at a time. A character is
escaped behind a backslash that is not escaped itself. -/
def closingQuote (escaped : Bool) : Text → Option Nat
  | [] => none
  | c :: s =>
    if escaped then (closingQuote false s).map (· + 1)
    else if c = '"' then some 1
    else (closingQuote (c == '\\') s).map (· + 1)

/-- A run of name characters is a number if all of it is one. -/
def nameKind (run : Text) : AtomKind :=
  if run ∈ Number.pattern.matches' then .number else .identifier

/-- The kind and the length of the token that begins at the front. In a text that is not
`fresh` the mark of a block comment has been passed before. -/
def front? (fresh : Bool) : Text → Option (Kind × Nat)
  | [] => none
  | c :: s =>
    if isOpener c then some (.opener, 1)
    else if isCloser c then some (.closer, 1)
    else if c = ';' then some (.atom .lineComment, 1 + (s.takeWhile (!isLineEnd ·)).length)
    else if c = '"' then (closingQuote false s).map fun n => (.atom .string, n + 1)
    else if c = '\'' then
      if s.takeWhile isNameChar = [] then none
      else some (.atom .symbol, (s.takeWhile isNameChar).length + 1)
    else if c = '#' then
      if fresh then (commentLength? (c :: s)).map fun n => (.atom .blockComment, n) else none
    else if isNameChar c then
      some (.atom (nameKind ((c :: s).takeWhile isNameChar)),
        ((c :: s).takeWhile isNameChar).length)
    else none

/-- What `front?` says, as a table of the tokens that can begin at the front. -/
inductive Begins (fresh : Bool) : Text → Kind → Nat → Prop
  | opener {c s} : isOpener c = true → Begins fresh (c :: s) .opener 1
  | closer {c s} : isCloser c = true → Begins fresh (c :: s) .closer 1
  | lineComment {s} :
    Begins fresh (';' :: s) (.atom .lineComment) (1 + (s.takeWhile (!isLineEnd ·)).length)
  | string {s n} : closingQuote false s = some n → Begins fresh ('"' :: s) (.atom .string) (n + 1)
  | symbol {s} : s.takeWhile isNameChar ≠ [] →
    Begins fresh ('\'' :: s) (.atom .symbol) ((s.takeWhile isNameChar).length + 1)
  | blockComment {s n} : fresh = true → Rule.blockComment ('#' :: s) = some n →
    Begins fresh ('#' :: s) (.atom .blockComment) n
  | name {c s} : isNameChar c = true → c ≠ ';' →
    Begins fresh (c :: s) (.atom (nameKind ((c :: s).takeWhile isNameChar)))
      ((c :: s).takeWhile isNameChar).length

/-- The same token seen from one character earlier. -/
def shift (t : Token) : Token := { t with span := t.span.shift 1 }

/-- Walks from left to right to the first position at which a token begins. -/
def scan (fresh : Bool) : Text → Option Token
  | [] => none
  | c :: s =>
    match front? fresh (c :: s) with
    | some (kind, n) => some ⟨kind, ⟨0, n⟩⟩
    | none => (scan (fresh && !opensComment (c :: s)) s).map shift

/-! ### Races in general -/

/-- A challenge in a race with any way to search. -/
def duel (find : Kind → Option Span) (leader : Option Token) (kind : Kind) : Option Token :=
  match find kind with
  | none => leader
  | some span => if span.yieldsTo (leader.map Token.span) then leader else some ⟨kind, span⟩

def race (find : Kind → Option Span) : Option Token := Kind.all.foldl (duel find) none

theorem nearest?_eq_race (code : Text) : nearest? code = race fun kind => kind.search code := rfl

theorem precedes_shift (a b : Span) : (a.shift 1).precedes (b.shift 1) = a.precedes b := by
  simp [Span.precedes, Span.shift]

theorem duel_shift (find : Kind → Option Span) (leader : Option Token) (kind : Kind) :
    duel (fun k => (find k).map (Span.shift 1)) (leader.map shift) kind =
      (duel find leader kind).map shift := by
  cases hfind : find kind with
  | none => simp [duel, hfind]
  | some span =>
    cases leader with
    | none => simp [duel, hfind, Span.yieldsTo, shift]
    | some t =>
      by_cases ht : t.span.precedes span = true <;>
        simp [duel, hfind, Span.yieldsTo, shift, precedes_shift, ht]

/-- A race seen from one character earlier has the same winner. -/
theorem race_shift (find : Kind → Option Span) :
    race (fun k => (find k).map (Span.shift 1)) = (race find).map shift := by
  have hfold (kinds : List Kind) : ∀ leader : Option Token,
      kinds.foldl (duel fun k => (find k).map (Span.shift 1)) (leader.map shift) =
        (kinds.foldl (duel find) leader).map shift := by
    induction kinds with
    | nil => intro leader; rfl
    | cons kind kinds ih =>
      intro leader
      rw [List.foldl_cons, List.foldl_cons, duel_shift, ih]
  exact hfold Kind.all none

/-- No leader that an earlier kind provides is to be kept against the span. -/
theorem foldl_duel_not_precedes {find : Kind → Option Span} {span : Span} {kinds : List Kind}
    (hkinds : ∀ j ∈ kinds, ∀ other, find j = some other → other.precedes span = false)
    {leader : Option Token} (hleader : ∀ t ∈ leader, t.span.precedes span = false) :
    ∀ t ∈ kinds.foldl (duel find) leader, t.span.precedes span = false := by
  induction kinds generalizing leader with
  | nil => exact hleader
  | cons kind kinds ih =>
    rw [List.foldl_cons]
    apply ih fun j hj => hkinds j (by simp [hj])
    intro t ht
    unfold duel at ht
    split at ht
    · exact hleader t ht
    · next other hother =>
      split_ifs at ht with hyield
      · exact hleader t ht
      · cases ht
        exact hkinds kind (by simp) other hother

theorem foldl_duel_of_precedes {find : Kind → Option Span} {t : Token} {kinds : List Kind}
    (hkinds : ∀ j ∈ kinds, ∀ other, find j = some other → t.span.precedes other = true) :
    kinds.foldl (duel find) (some t) = some t := by
  induction kinds with
  | nil => rfl
  | cons kind kinds ih =>
    have hduel : duel find (some t) kind = some t := by
      cases hfind : find kind with
      | none => simp [duel, hfind]
      | some other => simp [duel, hfind, Span.yieldsTo, hkinds kind (by simp) other hfind]
    rw [List.foldl_cons, hduel]
    exact ih fun j hj => hkinds j (by simp [hj])

/-- Who beats all earlier kinds and holds out against all later ones wins. -/
theorem race_eq_of_best {find : Kind → Option Span} {kind : Kind} {span : Span}
    {before after : List Kind} (hall : Kind.all = before ++ kind :: after)
    (hfind : find kind = some span)
    (hbefore : ∀ j ∈ before, ∀ other, find j = some other → other.precedes span = false)
    (hafter : ∀ j ∈ after, ∀ other, find j = some other → span.precedes other = true) :
    race find = some ⟨kind, span⟩ := by
  have hleader : ∀ t ∈ before.foldl (duel find) none, t.span.precedes span = false :=
    foldl_duel_not_precedes hbefore (by simp)
  have hduel : duel find (before.foldl (duel find) none) kind = some ⟨kind, span⟩ := by
    cases hfold : before.foldl (duel find) none with
    | none => simp [duel, hfind, Span.yieldsTo]
    | some t =>
      rw [hfold] at hleader
      simp [duel, hfind, Span.yieldsTo, hleader t rfl]
  rw [race, hall, List.foldl_append, List.foldl_cons, hduel]
  exact foldl_duel_of_precedes hafter

/-! ### The front of a text -/

/-- The rule of a kind; block comments begin in a fresh text only. -/
def ruleFor (fresh : Bool) : Kind → Text → Option Nat
  | .opener => Rule.single isOpener
  | .closer => Rule.single isCloser
  | .atom .lineComment => Rule.lineComment
  | .atom .blockComment => fun s => if fresh then Rule.blockComment s else none
  | .atom .string => Rule.string
  | .atom .number => Rule.number
  | .atom .symbol => Rule.symbol
  | .atom .identifier => Rule.identifier

/-- The search for a kind in a text before which the mark of a block comment may have been
passed. -/
def searchFrom (fresh : Bool) (kind : Kind) (code : Text) : Option Span :=
  if kind = .atom .blockComment ∧ fresh = false then none else kind.search code

@[simp] theorem searchFrom_fresh (kind : Kind) (code : Text) :
    searchFrom true kind code = kind.search code := by simp [searchFrom]

theorem blockComment_of_not_opensComment {s : Text} (h : opensComment s = false) :
    Rule.blockComment s = none := by
  unfold Rule.blockComment
  split
  · simp [opensComment] at h
  · rfl

theorem firstBlockComment_of_opensComment {s : Text} (h : opensComment s = true) :
    firstBlockComment s = (Rule.blockComment s).map (⟨0, ·⟩) := by
  unfold opensComment at h
  split at h
  · rw [firstBlockComment]
  · cases h

theorem firstBlockComment_cons {c : Char} {s : Text} (h : opensComment (c :: s) = false) :
    firstBlockComment (c :: s) = (firstBlockComment s).map (Span.shift 1) := by
  rw [firstBlockComment]
  rintro u rfl rfl
  cases h

/-- Every search either finds a token at the front or goes on behind the first character. -/
theorem searchFrom_cons (fresh : Bool) (kind : Kind) (c : Char) (s : Text) :
    searchFrom fresh kind (c :: s) =
      match ruleFor fresh kind (c :: s) with
      | some n => some ⟨0, n⟩
      | none =>
        (searchFrom (fresh && !opensComment (c :: s)) kind s).map (Span.shift 1) := by
  by_cases hkind : kind = .atom .blockComment
  · subst hkind
    cases fresh with
    | false => simp [searchFrom, ruleFor]
    | true =>
      rw [searchFrom_fresh]
      cases hopen : opensComment (c :: s) with
      | false =>
        simp [Kind.search, ruleFor, blockComment_of_not_opensComment hopen,
          firstBlockComment_cons hopen]
      | true =>
        simp only [Kind.search, ruleFor, firstBlockComment_of_opensComment hopen, if_true]
        cases Rule.blockComment (c :: s) <;> simp [searchFrom]
  · have hfrom (b : Bool) (code : Text) : searchFrom b kind code = kind.search code := by
      simp [searchFrom, hkind]
    rw [hfrom, hfrom]
    cases kind with
    | opener => rfl
    | closer => rfl
    | atom kind =>
      cases kind with
      | blockComment => exact absurd rfl hkind
      | _ => rfl

/-- At the front the kind `kind` with `n` characters beats all earlier kinds and holds out
against all later ones. -/
def Best (rule : Kind → Option Nat) (kind : Kind) (n : Nat) : Prop :=
  ∃ before after, Kind.all = before ++ kind :: after ∧ rule kind = some n ∧
    (∀ j ∈ before, ∀ m, rule j = some m → m < n) ∧ (∀ j ∈ after, ∀ m, rule j = some m → m ≤ n)

variable {rule : Kind → Option Nat} {later : Kind → Option Span}

/-- A span at the front is compared by its length with a find at the front, and precedes every
other find. -/
theorem precedes_front_iff {kind : Kind} {n : Nat} {other : Span}
    (h : (match rule kind with
      | some m => some ⟨0, m⟩
      | none => (later kind).map (Span.shift 1)) = some other) :
    (Span.precedes ⟨0, n⟩ other = true ↔ ∀ m, rule kind = some m → m ≤ n) ∧
      (other.precedes ⟨0, n⟩ = false ↔ ∀ m, rule kind = some m → m < n) := by
  cases hrule : rule kind with
  | some m =>
    rw [hrule] at h
    cases h
    simp [Span.precedes]
  | none =>
    rw [hrule] at h
    obtain ⟨t, -, rfl⟩ := Option.map_eq_some_iff.1 h
    simp [Span.precedes, Span.shift]

theorem race_of_best {kind : Kind} {n : Nat} (h : Best rule kind n) :
    (race fun k => match rule k with
      | some m => some ⟨0, m⟩
      | none => (later k).map (Span.shift 1)) = some ⟨kind, ⟨0, n⟩⟩ := by
  obtain ⟨before, after, hall, hrule, hbefore, hafter⟩ := h
  apply race_eq_of_best hall
  · simp [hrule]
  · intro j hj other hother
    exact (precedes_front_iff hother).2.2 (hbefore j hj)
  · intro j hj other hother
    exact (precedes_front_iff hother).1.2 (hafter j hj)

theorem race_of_none (h : ∀ k, rule k = none) :
    (race fun k => match rule k with
      | some m => some ⟨0, m⟩
      | none => (later k).map (Span.shift 1)) = (race later).map shift := by
  simp only [h]
  exact race_shift later

/-! ### Which rules apply at a character -/

/-- A token of the kind may begin with the character. -/
def starts : Kind → Char → Bool
  | .opener, c => isOpener c
  | .closer, c => isCloser c
  | .atom .lineComment, c => c == ';'
  | .atom .blockComment, c => c == '#'
  | .atom .string, c => c == '"'
  | .atom .number, c => isNameChar c
  | .atom .symbol, c => c == '\''
  | .atom .identifier, c => isNameChar c

theorem mem_all (kind : Kind) : kind ∈ Kind.all := by
  cases kind with
  | opener => decide
  | closer => decide
  | atom kind => cases kind <;> decide

variable {c : Char} {s : Text} {fresh : Bool}

theorem identifier_cons (h : isNameChar c = true) :
    Rule.identifier (c :: s) = some ((c :: s).takeWhile isNameChar).length := by
  simp [Rule.identifier, h]

theorem number_cons_of_not (h : isNameChar c = false) : Rule.number (c :: s) = none := by
  cases hn : Rule.number (c :: s) with
  | none => rfl
  | some n =>
    have hle := Number.number_le_run hn
    have hpos := Rule.number_pos hn
    simp [h] at hle
    omega

theorem ruleFor_of_not_starts {kind : Kind} (h : starts kind c = false) :
    ruleFor fresh kind (c :: s) = none := by
  cases kind with
  | opener => simpa [ruleFor, Rule.single, starts] using h
  | closer => simpa [ruleFor, Rule.single, starts] using h
  | atom kind =>
    cases kind with
    | lineComment =>
      dsimp only [ruleFor]
      unfold Rule.lineComment
      split <;> simp_all [starts]
    | blockComment =>
      dsimp only [ruleFor]
      unfold Rule.blockComment
      split <;> simp_all [starts]
    | string =>
      dsimp only [ruleFor]
      unfold Rule.string
      split <;> simp_all [starts]
    | number => exact number_cons_of_not h
    | symbol =>
      dsimp only [ruleFor]
      unfold Rule.symbol
      split <;> simp_all [starts]
    | identifier =>
      have hname : isNameChar c = false := h
      simp [ruleFor, Rule.identifier, hname]

/-- Characters of names have no part in any other kind, the semicolon apart. -/
theorem starts_of_isNameChar (h : isNameChar c = true) (hsemi : c ≠ ';') {kind : Kind}
    (hnumber : kind ≠ .atom .number) (hidentifier : kind ≠ .atom .identifier) :
    starts kind c = false := by
  have hreserved := (isNameChar_iff.1 h).1
  simp only [isReserved, List.contains_eq_mem, List.mem_cons, List.not_mem_nil, or_false,
    decide_eq_false_iff_not, not_or] at hreserved
  cases kind with
  | opener => simp [starts, isOpener, hreserved]
  | closer => simp [starts, isCloser, hreserved]
  | atom kind => cases kind <;> simp_all [starts]

theorem best_of_only {kind : Kind} {n : Nat} (hrule : rule kind = some n)
    (hother : ∀ j ∈ Kind.all, j ≠ kind → rule j = none) : Best rule kind n := by
  obtain ⟨before, after, hall⟩ := List.append_of_mem (mem_all kind)
  have hnodup : (before ++ kind :: after).Nodup := hall ▸ (by decide : Kind.all.Nodup)
  rw [List.nodup_middle, List.nodup_cons, List.mem_append, not_or] at hnodup
  obtain ⟨⟨hbefore, hafter⟩, -⟩ := hnodup
  refine ⟨before, after, hall, hrule, ?_, ?_⟩
  · intro j hj m hm
    have hne : j ≠ kind := by
      rintro rfl
      exact hbefore hj
    simp [hother j (mem_all j) hne] at hm
  · intro j hj m hm
    have hne : j ≠ kind := by
      rintro rfl
      exact hafter hj
    simp [hother j (mem_all j) hne] at hm

/-- A string is closed by the first quote that a walk character by character finds not
escaped. -/
theorem closingQuote_eq (s : Text) : closingQuote false s = Rule.closeString s := by
  fun_induction Rule.closeString s with
  | case1 s => simp [closingQuote]
  | case2 c s ih => simp [closingQuote, ih, Function.comp_def]
  | case3 => simp [closingQuote]
  | case4 c s hquote hescape hlone ih =>
    have hslash : (c == '\\') = false := by
      rw [beq_eq_false_iff_ne]
      intro hc
      cases s with
      | nil => exact hlone hc rfl
      | cons d s => exact hescape d s hc rfl
    have hc : c ≠ '"' := hquote
    rw [closingQuote, if_neg Bool.false_ne_true, if_neg hc, hslash, ih]
  | case5 => rfl

theorem best_of_starts {kind : Kind} {n : Nat} (hrule : ruleFor fresh kind (c :: s) = some n)
    (hother : ∀ j ∈ Kind.all, j ≠ kind → starts j c = false) :
    Best (ruleFor fresh · (c :: s)) kind n := by
  apply best_of_only hrule
  intro j hj hne
  exact ruleFor_of_not_starts (hother j hj hne)

theorem opener_iff : isOpener c = true ↔ c = '(' ∨ c = '[' := by simp [isOpener]

theorem closer_iff : isCloser c = true ↔ c = ')' ∨ c = ']' := by simp [isCloser]

/-- A line goes on at least as long as a name does. -/
theorem length_name_le_line (s : Text) :
    (s.takeWhile isNameChar).length ≤ (s.takeWhile (!isLineEnd ·)).length := by
  induction s with
  | nil => simp
  | cons c s ih =>
    cases hname : isNameChar c with
    | false => simp [hname]
    | true =>
      have hline : isLineEnd c = false := by
        by_contra hend
        simp only [isLineEnd, Bool.not_eq_false, Bool.or_eq_true, beq_iff_eq] at hend
        rcases hend with ((rfl | rfl) | rfl) | rfl <;> revert hname <;> decide
      simp [hname, hline, ih]

theorem lineComment_best :
    Best (ruleFor fresh · (';' :: s)) (.atom .lineComment)
      (1 + (s.takeWhile (!isLineEnd ·)).length) := by
  refine ⟨[], _, rfl, rfl, by simp, ?_⟩
  intro j hj m hm
  by_cases hidentifier : j = .atom .identifier
  · subst hidentifier
    have hline := length_name_le_line s
    have hm' : some (';' :: s.takeWhile isNameChar).length = some m := hm
    simp only [List.length_cons, Option.some.injEq] at hm'
    omega
  · have hother : ∀ j ∈ Kind.all, j ≠ .atom .lineComment → j ≠ .atom .number →
        j ≠ .atom .identifier → starts j ';' = false := by decide
    have hnone : ruleFor fresh j (';' :: s) = none := by
      by_cases hnumber : j = .atom .number
      · subst hnumber
        rfl
      · have hline : j ≠ .atom .lineComment := by rintro rfl; simp at hj
        exact ruleFor_of_not_starts (hother j (mem_all j) hline hnumber hidentifier)
    simp [hnone] at hm

theorem name_best (hname : isNameChar c = true) (hsemi : c ≠ ';') :
    Best (ruleFor fresh · (c :: s)) (.atom (nameKind ((c :: s).takeWhile isNameChar)))
      ((c :: s).takeWhile isNameChar).length := by
  have hnone {j : Kind} (hnumber : j ≠ .atom .number) (hidentifier : j ≠ .atom .identifier) :
      ruleFor fresh j (c :: s) = none :=
    ruleFor_of_not_starts (starts_of_isNameChar hname hsemi hnumber hidentifier)
  have hrun : ruleFor fresh (.atom .identifier) (c :: s) =
      some ((c :: s).takeWhile isNameChar).length := identifier_cons hname
  unfold nameKind
  split_ifs with hmem
  · refine ⟨[.atom .lineComment, .atom .blockComment, .opener, .closer, .atom .string],
      [.atom .symbol, .atom .identifier], rfl, Number.number_eq_run_iff.2 hmem, ?_, ?_⟩
    · intro j hj m hm
      have hnumber : j ≠ .atom .number := by rintro rfl; simp at hj
      have hidentifier : j ≠ .atom .identifier := by rintro rfl; simp at hj
      simp [hnone hnumber hidentifier] at hm
    · intro j hj m hm
      by_cases hidentifier : j = .atom .identifier
      · subst hidentifier
        exact (Option.some.inj (hrun.symm.trans hm)).ge
      · have hnumber : j ≠ .atom .number := by rintro rfl; simp at hj
        simp [hnone hnumber hidentifier] at hm
  · refine ⟨[.atom .lineComment, .atom .blockComment, .opener, .closer, .atom .string,
      .atom .number, .atom .symbol], [], rfl, hrun, ?_, by simp⟩
    intro j hj m hm
    by_cases hnumber : j = .atom .number
    · -- a number that is no longer than a part of the run gives way to the run
      subst hnumber
      have hle := Number.number_le_run hm
      have hne : m ≠ ((c :: s).takeWhile isNameChar).length := by
        rintro rfl
        exact hmem (Number.number_eq_run_iff.1 hm)
      omega
    · have hidentifier : j ≠ .atom .identifier := by rintro rfl; simp at hj
      simp [hnone hnumber hidentifier] at hm

theorem begins_of_front? {kind : Kind} {n : Nat} (h : front? fresh s = some (kind, n)) :
    Begins fresh s kind n := by
  cases s with
  | nil => cases h
  | cons c s =>
    rw [front?] at h
    split at h
    · next hopener =>
      cases h
      exact .opener hopener
    split at h
    · next hcloser =>
      cases h
      exact .closer hcloser
    split at h
    · next hsemi =>
      cases h
      exact hsemi ▸ .lineComment
    next hsemi =>
    split at h
    · next hquote =>
      obtain ⟨m, hm, he⟩ := Option.map_eq_some_iff.1 h
      cases he
      exact hquote ▸ .string hm
    split at h
    · next hapostrophe =>
      split at h
      · cases h
      · next hrun =>
        cases h
        exact hapostrophe ▸ .symbol hrun
    split at h
    · next hmark =>
      subst hmark
      split at h
      · next hfresh =>
        rw [commentLength?_eq] at h
        obtain ⟨m, hm, he⟩ := Option.map_eq_some_iff.1 h
        cases he
        exact .blockComment hfresh hm
      · cases h
    split at h
    · next hname =>
      cases h
      exact .name hname hsemi
    · cases h

/-- The token that the walk finds at the front beats all others there. -/
theorem best_of_begins {kind : Kind} {n : Nat} (h : Begins fresh (c :: s) kind n) :
    Best (ruleFor fresh · (c :: s)) kind n := by
  cases h with
  | opener hopener =>
    rcases opener_iff.1 hopener with rfl | rfl <;> exact best_of_starts rfl (by decide)
  | closer hcloser =>
    rcases closer_iff.1 hcloser with rfl | rfl <;> exact best_of_starts rfl (by decide)
  | lineComment => exact lineComment_best
  | string hm =>
    apply best_of_starts _ (by decide)
    simp [ruleFor, Rule.string, ← closingQuote_eq, hm]
  | symbol hrun =>
    apply best_of_starts _ (by decide)
    simp [ruleFor, Rule.symbol, Rule.identifier, List.length_pos_iff, hrun]
  | blockComment hfresh hm =>
    apply best_of_starts _ (by decide)
    simpa [ruleFor, hfresh] using hm
  | name hname hsemi => exact name_best hname hsemi

theorem front?_of_begins {kind : Kind} {n : Nat} (h : Begins fresh s kind n) :
    front? fresh s = some (kind, n) := by
  cases h with
  | opener hopener => simp [front?, hopener]
  | closer hcloser => rcases closer_iff.1 hcloser with rfl | rfl <;> rfl
  | lineComment => rfl
  | string hm => simp [front?, isOpener, isCloser, hm]
  | symbol hrun => simp [front?, isOpener, isCloser, hrun]
  | blockComment hfresh hm => simp [front?, isOpener, isCloser, hfresh, commentLength?_eq, hm]
  | @name c s hname hsemi =>
    have hnone {j : Kind} (hnumber : j ≠ .atom .number) (hidentifier : j ≠ .atom .identifier) :=
      starts_of_isNameChar hname hsemi hnumber hidentifier
    have hopener : isOpener c = false := hnone (j := .opener) (by decide) (by decide)
    have hcloser : isCloser c = false := hnone (j := .closer) (by decide) (by decide)
    have hquote : (c == '"') = false := hnone (j := .atom .string) (by decide) (by decide)
    have happos : (c == '\'') = false := hnone (j := .atom .symbol) (by decide) (by decide)
    have hmark : (c == '#') = false := hnone (j := .atom .blockComment) (by decide) (by decide)
    rw [beq_eq_false_iff_ne] at hquote happos hmark
    simp [front?, hopener, hcloser, hsemi, hquote, happos, hmark, hname]

theorem front?_eq_none_iff : front? fresh s = none ↔ ∀ kind n, ¬Begins fresh s kind n := by
  constructor
  · intro h kind n hbegins
    simp [front?_of_begins hbegins] at h
  · intro h
    by_contra hsome
    obtain ⟨⟨kind, n⟩, hfront⟩ := Option.ne_none_iff_exists'.1 hsome
    exact h kind n (begins_of_front? hfront)

theorem exists_begins_of_isNameChar (h : isNameChar c = true) :
    ∃ kind n, Begins fresh (c :: s) kind n := by
  by_cases hsemi : c = ';'
  · subst hsemi
    exact ⟨_, _, .lineComment⟩
  · exact ⟨_, _, .name h hsemi⟩

theorem exists_begins_of_ruleFor {kind : Kind} {n : Nat}
    (h : ruleFor fresh kind (c :: s) = some n) : ∃ kind n, Begins fresh (c :: s) kind n := by
  have hstart : starts kind c = true := by
    by_contra hstart
    simp [ruleFor_of_not_starts (Bool.eq_false_iff.2 hstart)] at h
  cases kind with
  | opener => exact ⟨_, _, .opener hstart⟩
  | closer => exact ⟨_, _, .closer hstart⟩
  | atom kind =>
    cases kind with
    | lineComment =>
      obtain rfl : c = ';' := by simpa [starts] using hstart
      exact ⟨_, _, .lineComment⟩
    | blockComment =>
      obtain rfl : c = '#' := by simpa [starts] using hstart
      cases fresh with
      | false => cases h
      | true => exact ⟨_, _, .blockComment rfl h⟩
    | string =>
      obtain rfl : c = '"' := by simpa [starts] using hstart
      obtain ⟨m, hm, -⟩ := Option.map_eq_some_iff.1 h
      exact ⟨_, _, .string ((closingQuote_eq s).trans hm)⟩
    | number => exact exists_begins_of_isNameChar hstart
    | symbol =>
      obtain rfl : c = '\'' := by simpa [starts] using hstart
      obtain ⟨m, hm, -⟩ := Option.map_eq_some_iff.1 h
      refine ⟨_, _, .symbol ?_⟩
      rintro hrun
      simp [Rule.identifier, hrun] at hm
    | identifier => exact exists_begins_of_isNameChar hstart

/-- Where the walk finds nothing no rule applies. -/
theorem ruleFor_of_front?_eq_none (h : front? fresh (c :: s) = none) (kind : Kind) :
    ruleFor fresh kind (c :: s) = none := by
  by_contra hsome
  obtain ⟨m, hm⟩ := Option.ne_none_iff_exists'.1 hsome
  obtain ⟨k, n, hbegins⟩ := exists_begins_of_ruleFor hm
  exact front?_eq_none_iff.1 h k n hbegins

theorem race_cons (fresh : Bool) (c : Char) (s : Text) :
    race (fun k => searchFrom fresh k (c :: s)) =
      match front? fresh (c :: s) with
      | some (kind, n) => some ⟨kind, ⟨0, n⟩⟩
      | none => (race fun k => searchFrom (fresh && !opensComment (c :: s)) k s).map shift := by
  simp only [searchFrom_cons]
  cases hfront : front? fresh (c :: s) with
  | none => exact race_of_none (ruleFor_of_front?_eq_none hfront)
  | some winner => exact race_of_best (best_of_begins (begins_of_front? hfront))

theorem race_eq_scan (fresh : Bool) (code : Text) :
    race (fun k => searchFrom fresh k code) = scan fresh code := by
  induction code generalizing fresh with
  | nil =>
    have hnone (kind : Kind) : searchFrom fresh kind [] = none := by
      simp [searchFrom, Kind.search_nil]
    simp only [hnone]
    rfl
  | cons c s ih =>
    rw [race_cons, scan, ih]

theorem nearest?_eq_race_from (code : Text) :
    nearest? code = race fun k => searchFrom true k code := by
  simp only [searchFrom_fresh]
  exact nearest?_eq_race code

/-- The race and the walk agree on every text. -/
theorem nearest?_eq_scan (code : Text) : nearest? code = scan true code :=
  (nearest?_eq_race_from code).trans (race_eq_scan true code)

example : scan true "\"a; #|b".toList = some ⟨.atom .identifier, ⟨1, 2⟩⟩ := by decide

end DesignRecipe.Token
