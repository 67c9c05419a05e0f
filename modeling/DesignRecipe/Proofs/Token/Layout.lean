import DesignRecipe.Proofs.Text.Occurrence
import DesignRecipe.Proofs.Token.LineBreak
import DesignRecipe.Proofs.Token.LineEnding

/-!
# Tokens in another layout

How a text is laid out is the blanks between its tokens and the shape of its brackets. A token that
is reached over a plain gap does not look at either of them in the text around it: blanks in front
of it make the gap longer, blanks behind it end it where it ends, and all that it needs to know of
the next token is that no name goes on with it. So all tokens may be laid out anew at once.
-/
namespace DesignRecipe

/-- White space only. -/
def Text.Blank (s : Text) : Prop := ∀ c ∈ s, isBlank c = true

instance (s : Text) : Decidable s.Blank := List.decidableBAll (Text.isBlank · = true) s

namespace Token

open Text

variable {c : Char} {s s' u u' gap b text text' : Text} {t : Token} {fresh : Bool} {kind : Kind}
  {atom : AtomKind} {n k : Nat}

/-! ### Blanks -/

theorem isNameChar_of_isBlank (hc : isBlank c = true) : isNameChar c = false := by
  simp [isNameChar, hc]

theorem ne_of_isBlank {d : Char} (hd : isBlank d = false) (hc : isBlank c = true) : c ≠ d := by
  rintro rfl
  rw [hd] at hc
  cases hc

theorem isBlank_of_isLineEnd (hc : isLineEnd c = true) : isBlank c = true := by
  simp only [isLineEnd, Bool.or_eq_true, beq_iff_eq] at hc
  rcases hc with ((rfl | rfl) | rfl) | rfl <;> decide

theorem notMem_of_blank {d : Char} (hd : isBlank d = false) (hb : Blank b) : d ∉ b := by
  intro hmem
  rw [hb d hmem] at hd
  cases hd

theorem Plain.blank_append (h : Plain gap) (hb : Blank b) : Plain (b ++ gap) := by
  constructor
  · intro hquote
    rcases List.mem_append.1 hquote with hquote | hquote
    · exact notMem_of_blank (by decide) hb hquote
    · exact h.1 hquote
  · intro hmark
    exact h.2 (infix_of_infix_append hmark (notMem_of_blank (by decide) hb))

theorem Plain.append_blank (h : Plain gap) (hb : Blank b) : Plain (gap ++ b) := by
  constructor
  · intro hquote
    rcases List.mem_append.1 hquote with hquote | hquote
    · exact h.1 hquote
    · exact notMem_of_blank (by decide) hb hquote
  · intro hmark
    -- seen from behind, the blanks are in front
    have hmark' : ['|', '#'] <:+: b.reverse ++ gap.reverse := by
      rw [← List.reverse_append]
      exact List.reverse_infix.2 hmark
    have hbar : '|' ∉ b.reverse := by
      rw [List.mem_reverse]
      exact notMem_of_blank (by decide) hb
    exact h.2 (List.reverse_infix.1 (infix_of_infix_append hmark' hbar))

theorem scan_blank (hb : Blank b) (h : scan true s = some ⟨kind, ⟨k, n⟩⟩) :
    scan true (b ++ s) = some ⟨kind, ⟨b.length + k, n⟩⟩ := by
  induction b with
  | nil => simpa using h
  | cons c b ih =>
    obtain ⟨hc, hb⟩ := List.forall_mem_cons.1 hb
    rw [List.cons_append, scan_of_isBlank hc, ih hb, List.length_cons, Nat.add_right_comm]
    rfl

theorem map_mark_stream_blank_append (hb : Blank b) (s : Text) :
    (stream (b ++ s)).map Lexeme.mark = (stream s).map Lexeme.mark := by
  induction b with
  | nil => rfl
  | cons c b ih =>
    obtain ⟨hc, hb⟩ := List.forall_mem_cons.1 hb
    rw [List.cons_append, map_mark_stream_blank hc, ih hb]

/-! ### One token -/

/-- A token may be spelled as it is, and a bracket with any bracket of its direction. -/
inductive Respelled : Kind → Text → Text → Prop
  | same {kind : Kind} {text : Text} : Respelled kind text text
  | opener {c : Char} {text : Text} : isOpener c = true → Respelled .opener text [c]
  | closer {c : Char} {text : Text} : isCloser c = true → Respelled .closer text [c]

theorem Respelled.mark_eq (h : Respelled kind text text') (gap gap' : Text) :
    (⟨gap', kind, text'⟩ : Lexeme).mark = (⟨gap, kind, text⟩ : Lexeme).mark := by
  cases h <;> rfl

theorem Respelled.headLike (h : Respelled kind text text') (hne : text ≠ []) (u u' : Text) :
    HeadLike (text ++ u) (text' ++ u') := by
  cases h with
  | same =>
    obtain ⟨c, text, rfl⟩ := List.exists_cons_of_ne_nil hne
    exact fun _ hd => .inl hd
  | opener hc => rcases opener_iff.1 hc with rfl | rfl <;> exact .of_cons (by decide) (by decide)
  | closer hc => rcases closer_iff.1 hc with rfl | rfl <;> exact .of_cons (by decide) (by decide)

theorem HeadLike.blank_append (h : HeadLike s s') (hb : Blank b) : HeadLike s (b ++ s') := by
  cases b with
  | nil => exact h
  | cons c b =>
    have hc := hb c List.mem_cons_self
    exact .of_cons (isNameChar_of_isBlank hc) (ne_of_isBlank (by decide) hc)

theorem stops_of_length_takeWhile {p : Char → Bool}
    (h : ((s ++ u).takeWhile p).length = s.length) : Stops p u := by
  rw [List.takeWhile_append] at h
  split_ifs at h with hall
  · rw [List.length_append, Nat.add_eq_left, List.length_eq_zero_iff] at h
    exact takeWhile_eq_nil_iff_stops.1 h
  · exact absurd h hall

/-- A token goes as far as it can. -/
theorem Begins.stops (h : Begins fresh (text ++ u) (.atom atom) text.length) :
    Stops (continues atom) u := by
  generalize hcode : text ++ u = code, hkind : Kind.atom atom = kind,
    hlength : text.length = n at h
  have htail {c : Char} {w : Text} {p : Char → Bool} (hw : text ++ u = c :: w)
      (hrun : text.length = (w.takeWhile p).length + 1) : Stops p u := by
    obtain ⟨c', text, rfl⟩ := List.exists_cons_of_length_eq_add_one hrun
    obtain ⟨-, rfl⟩ := List.cons.inj hw
    exact stops_of_length_takeWhile (Nat.succ.inj hrun).symm
  cases h with
  | opener => cases hkind
  | closer => cases hkind
  | lineComment =>
    cases hkind
    rw [Nat.add_comm] at hlength
    exact htail hcode hlength
  | string =>
    cases hkind
    exact fun _ _ => rfl
  | symbol =>
    cases hkind
    exact htail hcode hlength
  | blockComment =>
    cases hkind
    exact fun _ _ => rfl
  | name =>
    cases hkind
    rw [continues_nameKind]
    rw [← hcode] at hlength
    exact stops_of_length_takeWhile hlength.symm

theorem Begins.relaid (h : Begins fresh (text ++ u) kind text.length)
    (htext : Respelled kind text text')
    (hu : ∀ atom, kind = .atom atom → Stops (continues atom) u → Stops (continues atom) u') :
    Begins true (text' ++ u') kind text'.length := by
  cases htext with
  | same =>
    have halone := h.take.2
    rw [List.take_left] at halone
    apply halone.append
    rintro atom rfl
    exact hu atom rfl h.stops
  | opener hc => exact .opener hc
  | closer hc => exact .closer hc

theorem stream_of_scan
    (h : scan true (gap ++ (text ++ u)) = some ⟨kind, ⟨gap.length, text.length⟩⟩) :
    stream (gap ++ (text ++ u)) = ⟨gap, kind, text⟩ :: stream u := by
  rw [← race_eq_scan, ← nearest?_eq_race_from] at h
  rw [stream_of_nearest? h]
  simp [Lexeme.ofToken, Span.text, Span.stop, ← List.drop_drop]

/-- The second text may stand in place of the first one behind a token: it begins alike, and it
begins just as the first one does if that begins with a blank or has nothing in it. -/
structure Replaces (u u' : Text) : Prop where
  alike : HeadLike u u'
  blank : (∀ c ∈ u.head?, isBlank c = true) → u'.head? = u.head?

theorem Replaces.refl (u : Text) : Replaces u u := ⟨.refl u, fun _ => rfl⟩

theorem Replaces.append_left (h : Replaces u u') (gap : Text) :
    Replaces (gap ++ u) (gap ++ u') := by
  cases gap with
  | nil => exact h
  | cons c gap => exact ⟨h.alike.append_left (c :: gap), fun _ => rfl⟩

/-- What is put in the place of a token need not begin with the same character, because no token
begins with a blank. -/
theorem Respelled.replaces {before : Text} (h : Respelled kind text text')
    (htext : Begins fresh text kind n) (hbefore : Blank before) (u u' : Text) :
    Replaces (text ++ u) (before ++ (text' ++ u')) := by
  cases text with
  | nil => cases htext
  | cons c text =>
    refine ⟨(h.headLike (by simp) u u').blank_append hbefore, ?_⟩
    intro hblank
    have hc := hblank c rfl
    rw [not_isBlank_of_begins htext] at hc
    cases hc

/-- What does not go on with an atom does not go on with it in another layout. -/
theorem Replaces.stops {after : Text} (h : Replaces u u') (hafter : Blank after)
    (hline : atom = .lineComment → after = []) (hstops : Stops (continues atom) u) :
    Stops (continues atom) (after ++ u') := by
  have hname (hstops : Stops isNameChar u) : Stops isNameChar (after ++ u') :=
    (h.alike.blank_append hafter).stops hstops
  cases atom with
  | lineComment =>
    obtain rfl := hline rfl
    -- a line end is a blank, so that it stays where it is
    have hhead : u'.head? = u.head? := by
      apply h.blank
      intro c hc
      exact isBlank_of_isLineEnd (by simpa [continues] using hstops c hc)
    intro c hc
    rw [List.nil_append, hhead] at hc
    exact hstops c hc
  | number => exact hname hstops
  | symbol => exact hname hstops
  | identifier => exact hname hstops
  | blockComment => exact fun _ _ => rfl
  | string => exact fun _ _ => rfl

end Token

open Text Token

/-- The token in a new layout: with more blanks in front of it and behind it, and a bracket with any
bracket of its direction. Nothing is put behind a line comment, which would go on with it. -/
inductive Lexeme.Relaid (x : Lexeme) : Text → Prop
  | mk (before text after : Text) : Blank before → Blank after → Respelled x.kind x.text text →
    (x.kind = .atom .lineComment → after = []) → Relaid x (x.gap ++ (before ++ (text ++ after)))

namespace Token

variable {s rest carry piece : Text} {t : Token} {xs : List Lexeme} {pieces : List Text}

/-- A token that is reached over a plain gap is found again in a new layout, with more blanks in
front of it. The blanks behind it are left. -/
theorem exists_stream_relaid (h : nearest? s = some t) (hx : (Lexeme.ofToken s t).Relaid piece)
    (hgap : Plain (Lexeme.ofToken s t).gap) (hcarry : Blank carry) :
    ∃ y after, y.mark = (Lexeme.ofToken s t).mark ∧ Plain y.gap ∧ Blank after ∧
      ∀ u', Replaces (s.drop t.span.stop) u' →
        stream (carry ++ (piece ++ u')) = y :: stream (after ++ u') := by
  have htoken := (Lexeme.sound_ofToken h).text
  obtain ⟨hindex, -, fresh, hbegins⟩ := Lexeme.exists_begins_ofToken h
  have hscan : scan true ((Lexeme.ofToken s t).gap ++
      ((Lexeme.ofToken s t).text ++ s.drop t.span.stop)) = some t := by
    rw [← List.append_assoc]
    change scan true ((Lexeme.ofToken s t).whole ++ _) = _
    rwa [Lexeme.whole_ofToken, ← race_eq_scan, ← nearest?_eq_race_from]
  cases hx with
  | mk before text after hbefore hafter htext hline =>
    refine ⟨⟨carry ++ (Lexeme.ofToken s t).gap ++ before, t.kind, text⟩, after,
      htext.mark_eq _ _, (hgap.blank_append hcarry).append_blank hbefore, hafter, ?_⟩
    intro u' hu'
    have hfront : Begins true (text ++ (after ++ u')) t.kind text.length := by
      apply hbegins.relaid htext
      intro atom hatom hstops
      exact hu'.stops hafter (fun ha => hline (ha ▸ hatom)) hstops
    have hbehind := (htext.replaces htoken hbefore (s.drop t.span.stop) (after ++ u')).alike
    have hnext := scan_blank hcarry
      (scan_gap hscan hindex hgap hbehind (scan_blank hbefore (scan_of_begins hfront)))
    simp only [List.append_assoc]
    rw [← List.append_assoc _ before, ← List.append_assoc carry] at hnext ⊢
    apply stream_of_scan
    rw [hnext, List.length_append, List.length_append, Nat.add_zero]

/-! ### A run of tokens -/

theorem Replaces.relaid (h : List.Forall₂ Lexeme.Relaid xs pieces) (hsound : ∀ x ∈ xs, x.Sound)
    (rest : Text) : Replaces (xs.flatMap Lexeme.whole ++ rest) (pieces.flatten ++ rest) := by
  cases h with
  | nil => exact .refl rest
  | @cons x _ xs pieces hx _ =>
    have htoken := (hsound x List.mem_cons_self).text
    cases hx with
    | mk before text after hbefore _ htext =>
      simp only [List.flatMap_cons, List.flatten_cons, Lexeme.whole, List.append_assoc]
      exact (htext.replaces htoken hbefore _ _).append_left x.gap

/-- In a new layout the tokens are the same to a reader, and all that is new in the gaps between
them is blanks. -/
theorem exists_stream_flatten (h : List.Forall₂ Lexeme.Relaid xs pieces)
    (hstream : stream s = xs ++ stream rest) (hs : s = xs.flatMap Lexeme.whole ++ rest)
    (hgaps : ∀ x ∈ xs, Plain x.gap) (hcarry : Blank carry) :
    ∃ ys last, Blank last ∧ ys.map Lexeme.mark = xs.map Lexeme.mark ∧ (∀ y ∈ ys, Plain y.gap) ∧
      stream (carry ++ (pieces.flatten ++ rest)) = ys ++ stream (last ++ rest) := by
  induction h generalizing s carry with
  | nil => exact ⟨[], carry, hcarry, rfl, by simp, rfl⟩
  | @cons x piece xs pieces hx hxs ih =>
    have hsound : ∀ y ∈ xs, y.Sound := by
      intro y hy
      have hmem : y ∈ stream s := by simp [hstream, hy]
      exact sound_of_mem_stream hmem
    cases ht : nearest? s with
    | none => simp [stream_of_none ht] at hstream
    | some t =>
      rw [stream_of_nearest? ht, List.cons_append] at hstream
      obtain ⟨rfl, hbehind⟩ := List.cons.inj hstream
      obtain ⟨hgap, hothers⟩ := List.forall_mem_cons.1 hgaps
      have hdrop := Lexeme.drop_stop_eq hs
      -- the blanks behind this token are carried over to the gap of the next one
      obtain ⟨y, after, hmark, hplain, hafter, hfound⟩ := exists_stream_relaid ht hx hgap hcarry
      obtain ⟨ys, last, hlast, hmarks, hplains, htokens⟩ := ih hbehind hdrop hothers hafter
      have hnext := hfound (pieces.flatten ++ rest) (hdrop ▸ .relaid hxs hsound rest)
      refine ⟨y :: ys, last, hlast, ?_, List.forall_mem_cons.2 ⟨hplain, hplains⟩, ?_⟩
      · rw [List.map_cons, List.map_cons, hmark, hmarks]
      · rw [List.flatten_cons, List.append_assoc, hnext, htokens, List.cons_append]

end Token

end DesignRecipe
