import DesignRecipe.Proofs.Json.Escape
import DesignRecipe.Recipe.Listing
import Mathlib.Data.List.Forall2

/-!
# Reading what was written

A value that is made of texts, arrays and objects is written in ASCII and read back as it was. What
is written is cut into the tokens of the value, whatever stands behind it, and the machine takes
these tokens in wherever a value may stand. So a listing of groups in JSON tells the groups.
-/
namespace DesignRecipe

namespace Json

open Json.Token

/-- Texts, and arrays and objects of such values; the keys of an object differ. -/
inductive Textual : Json → Prop
  | string (s : Text) : Textual (.string s)
  | array {items : List Json} : (∀ v ∈ items, Textual v) → Textual (.array items)
  | object {fields : List (Text × Json)} : (fields.map Prod.fst).Nodup →
    (∀ f ∈ fields, Textual f.2) → Textual (.object fields)

/-! ### Tokens -/

mutual

/-- The tokens that a value is written with. -/
def tokens : Json → List Token
  | .string s => [.string s]
  | .array items => .openBracket :: [.comma].intercalate (tokensOfItems items) ++ [.closeBracket]
  | .object fields => .openBrace :: [.comma].intercalate (tokensOfFields fields) ++ [.closeBrace]
  | v => [.literal v]

def tokensOfItems : List Json → List (List Token)
  | [] => []
  | v :: items => v.tokens :: tokensOfItems items

def tokensOfFields : List (Text × Json) → List (List Token)
  | [] => []
  | (key, v) :: fields => (.string key :: .colon :: v.tokens) :: tokensOfFields fields

end

theorem tokensOfItems_eq_map (items : List Json) : tokensOfItems items = items.map tokens := by
  induction items with
  | nil => rfl
  | cons v items ih => rw [tokensOfItems, ih, List.map_cons]

theorem tokensOfFields_eq_map (fields : List (Text × Json)) :
    tokensOfFields fields = fields.map fun f => .string f.1 :: .colon :: f.2.tokens := by
  induction fields with
  | nil => rfl
  | cons f fields ih => rw [tokensOfFields, ih, List.map_cons]

theorem writeItems_eq_map (level : ℕ) (items : List Json) :
    writeItems level items = items.map (writeAt level) := by
  induction items with
  | nil => rfl
  | cons v items ih => rw [writeItems, ih, List.map_cons]

theorem writeFields_eq_map (level : ℕ) (fields : List (Text × Json)) :
    writeFields level fields =
      fields.map fun f => writeString f.1 ++ ':' :: ' ' :: f.2.writeAt level := by
  induction fields with
  | nil => rfl
  | cons f fields ih => rw [writeFields, ih, List.map_cons]

/-- A list of parts with something between them is the first part, and each other one behind what
stands between. -/
theorem intercalate_cons {α : Type*} (between part : List α) (parts : List (List α)) :
    between.intercalate (part :: parts) = part ++ parts.flatMap (between ++ ·) := by
  induction parts generalizing part with
  | nil => simp
  | cons next parts ih => rw [List.intercalate_cons_cons, ih, List.flatMap_cons, List.append_assoc,
      List.append_assoc]

namespace Token

variable {c : Char} {s : Text}

theorem all_of_dropWhile_eq_nil (h : s.dropWhile isSpace = []) : all s = [] := by
  rw [all]
  split
  · rfl
  · next hcons => simp [h] at hcons

theorem all_of_dropWhile_eq_cons {rest : Text} (h : s.dropWhile isSpace = c :: rest) :
    all s = (first c rest).1 :: all (rest.drop (first c rest).2) := by
  rw [all]
  split
  · next hnil => simp [h] at hnil
  · next hcons =>
    rw [h] at hcons
    cases hcons
    rfl

theorem all_cons (h : isSpace c = false) (s : Text) :
    all (c :: s) = (first c s).1 :: all (s.drop (first c s).2) :=
  all_of_dropWhile_eq_cons (List.dropWhile_cons_of_neg (by simp [h]))

theorem all_space (h : isSpace c = true) (s : Text) : all (c :: s) = all s := by
  have hspace : (c :: s).dropWhile isSpace = s.dropWhile isSpace := List.dropWhile_cons_of_pos h
  cases hs : s.dropWhile isSpace with
  | nil => rw [all_of_dropWhile_eq_nil hs, all_of_dropWhile_eq_nil (hspace.trans hs)]
  | cons d rest => rw [all_of_dropWhile_eq_cons hs, all_of_dropWhile_eq_cons (hspace.trans hs)]

end Token

/-- The part is ASCII, and it is cut into the tokens whatever stands behind it. -/
structure Reads (part : Text) (ts : List Token) : Prop where
  ascii : ∀ c ∈ part, c.toNat < 128
  all_append : ∀ t, Token.all (part ++ t) = ts ++ Token.all t

namespace Reads

variable {part more : Text} {ts us : List Token}

theorem nil : Reads [] [] := ⟨by simp, fun _ => rfl⟩

theorem append (h : Reads part ts) (hmore : Reads more us) : Reads (part ++ more) (ts ++ us) := by
  refine ⟨?_, ?_⟩
  · intro c hc
    exact (List.mem_append.1 hc).elim (h.ascii c) (hmore.ascii c)
  · intro t
    rw [List.append_assoc, h.all_append, hmore.all_append, List.append_assoc]

theorem mark {c : Char} {t : Token} (hascii : c.toNat < 128) (hspace : isSpace c = false)
    (hfirst : ∀ s, first c s = (t, 0)) : Reads [c] [t] := by
  refine ⟨by simpa using hascii, ?_⟩
  intro s
  rw [List.singleton_append, all_cons hspace, hfirst]
  rfl

theorem spaces (h : ∀ c ∈ part, isSpace c = true ∧ c.toNat < 128) : Reads part [] := by
  induction part with
  | nil => exact nil
  | cons c part ih =>
    obtain ⟨hc, hpart⟩ := List.forall_mem_cons.1 h
    refine ⟨fun d hd => (h d hd).2, ?_⟩
    intro t
    rw [List.cons_append, all_space hc.1]
    exact (ih hpart).all_append t

theorem newLine (level : ℕ) : Reads (newLine level) [] := by
  apply spaces
  intro c hc
  rcases List.mem_cons.1 hc with rfl | hc
  · decide
  · rw [List.eq_of_mem_replicate hc]
    decide

theorem writeString (s : Text) : Reads (writeString s) [.string s] := by
  refine ⟨?_, ?_⟩
  · intro c hc
    rw [Json.writeString, List.cons_append, List.mem_cons, List.mem_append, List.mem_singleton,
      List.mem_flatMap] at hc
    rcases hc with rfl | ⟨d, -, hd⟩ | rfl
    · decide
    · exact isAscii_of_mem_escapeChar hd
    · decide
  · intro t
    have hunits := units_flatMap_escapeChar s t
    have hfirst : first '"' (s.flatMap escapeChar ++ '"' :: t) =
        (.string s, (s.flatMap escapeChar).length + 1) := by
      rw [first, hunits]
      dsimp only
      rw [Text.Utf16.joinUnits_flatMap_unitsOf]
    rw [Json.writeString, List.cons_append, List.cons_append, List.append_assoc,
      List.singleton_append, all_cons (by decide), hfirst, ← List.drop_drop, List.drop_left]
    rfl

theorem intercalate {parts : List Text} {tss : List (List Token)} (h : Reads part ts)
    (hparts : List.Forall₂ Reads parts tss) :
    Reads (part.intercalate parts) (ts.intercalate tss) := by
  cases hparts with
  | nil => exact nil
  | @cons p us parts tss hp hparts =>
    rw [intercalate_cons, intercalate_cons]
    apply hp.append
    induction hparts with
    | nil => exact nil
    | cons hp _ ih =>
      rw [List.flatMap_cons, List.flatMap_cons]
      exact (h.append hp).append ih

/-- Parts that are laid out between brackets are cut into their tokens with commas between them. -/
theorem layOut {opening closing : Char} {t u : Token} {parts : List Text}
    {tss : List (List Token)} (level : ℕ) (hopening : Reads [opening] [t])
    (hclosing : Reads [closing] [u]) (hparts : List.Forall₂ Reads parts tss) :
    Reads (layOut level opening closing parts) (t :: [.comma].intercalate tss ++ [u]) := by
  have hcomma : Reads (',' :: Json.newLine (level + 1)) [.comma] :=
    (mark (by decide) (by decide) fun _ => rfl).append (newLine (level + 1))
  unfold Json.layOut
  cases hparts with
  | nil => exact hopening.append hclosing
  | cons hp hparts =>
    have hinside := hcomma.intercalate (.cons hp hparts)
    have hfront := (hopening.append (newLine (level + 1))).append hinside
    have hall := (hfront.append (newLine level)).append hclosing
    simpa using hall

end Reads

/-- What is written is cut into the tokens of the value. -/
theorem Textual.reads {v : Json} (h : Textual v) (level : ℕ) :
    Reads (v.writeAt level) v.tokens := by
  induction h generalizing level with
  | string s => exact .writeString s
  | @array items _ ih =>
    rw [writeAt, tokens, writeItems_eq_map, tokensOfItems_eq_map]
    apply Reads.layOut level (.mark (by decide) (by decide) fun _ => rfl)
      (.mark (by decide) (by decide) fun _ => rfl)
    rw [List.forall₂_map_left_iff, List.forall₂_map_right_iff, List.forall₂_same]
    intro v hv
    exact ih v hv (level + 1)
  | @object fields _ _ ih =>
    rw [writeAt, tokens, writeFields_eq_map, tokensOfFields_eq_map]
    apply Reads.layOut level (.mark (by decide) (by decide) fun _ => rfl)
      (.mark (by decide) (by decide) fun _ => rfl)
    rw [List.forall₂_map_left_iff, List.forall₂_map_right_iff, List.forall₂_same]
    intro f hf
    have hspace : Reads [' '] [] := .spaces (List.forall_mem_singleton.2 (by decide))
    have hcolon : Reads [':', ' '] [.colon] :=
      (Reads.mark (by decide) (by decide) fun _ => rfl).append hspace
    simpa using ((Reads.writeString f.1).append hcolon).append (ih f hf (level + 1))

/-! ### The machine -/

theorem put_of_notMem {key : Text} {v : Json} {fields : List (Text × Json)}
    (h : key ∉ fields.map Prod.fst) : put key v fields = fields ++ [(key, v)] := by
  induction fields with
  | nil => rfl
  | cons f fields ih =>
    rw [List.map_cons, List.mem_cons, not_or] at h
    rw [put, if_neg (Ne.symm h.1), ih h.2, List.cons_append]

theorem notMem_of_nodup {before fields : List (Text × Json)} {key : Text} {v : Json}
    (h : ((before ++ (key, v) :: fields).map Prod.fst).Nodup) : key ∉ before.map Prod.fst := by
  rw [List.map_append, List.map_cons] at h
  intro hmem
  exact (List.nodup_append.1 h).2.2 key hmem key List.mem_cons_self rfl

namespace State

theorem foldlM_step_cons {s : State} {t : Token} (s' : State) (h : s.step t = .ok s')
    (ts : List Token) : (t :: ts).foldlM step s = ts.foldlM step s' := by
  rw [List.foldlM_cons, h]
  rfl

/-- The tokens of the value lead from a place for a value to the place behind it. -/
def Takes (v : Json) : Prop :=
  ∀ frames ts, (v.tokens ++ ts).foldlM step (.value frames) = ts.foldlM step (.after v frames)

theorem foldlM_step_items {items : List Json} (h : ∀ w ∈ items, Takes w) (before : List Json)
    (v : Json) (frames : List Frame) (ts : List Token) :
    (items.flatMap (fun w => .comma :: w.tokens) ++ .closeBracket :: ts).foldlM step
        (.after v (.array before :: frames)) =
      ts.foldlM step (.after (.array (before ++ v :: items)) frames) := by
  induction items generalizing before v with
  | nil => exact foldlM_step_cons _ rfl ts
  | cons w items ih =>
    obtain ⟨hw, hitems⟩ := List.forall_mem_cons.1 h
    rw [List.flatMap_cons, List.append_assoc, List.cons_append,
      foldlM_step_cons (.value (.array (before ++ [v]) :: frames)) rfl, hw, ih hitems,
      List.append_assoc, List.singleton_append]

theorem foldlM_step_field {v : Json} (h : Takes v) (fields : List (Text × Json)) (isNew : Bool)
    (key : Text) (frames : List Frame) (ts : List Token) :
    (.string key :: .colon :: v.tokens ++ ts).foldlM step (.key fields isNew frames) =
      ts.foldlM step (.after v (.object fields key :: frames)) := by
  have hkey : step (.key fields isNew frames) (.string key) = .ok (.colon fields key frames) := by
    cases isNew <;> rfl
  rw [List.cons_append, List.cons_append, foldlM_step_cons _ hkey,
    foldlM_step_cons (.value (.object fields key :: frames)) rfl, h]

theorem foldlM_step_fields {fields : List (Text × Json)} (h : ∀ f ∈ fields, Takes f.2)
    (before : List (Text × Json)) (key : Text) (v : Json)
    (hnodup : ((before ++ (key, v) :: fields).map Prod.fst).Nodup) (frames : List Frame)
    (ts : List Token) :
    (fields.flatMap (fun f => .comma :: .string f.1 :: .colon :: f.2.tokens) ++
        .closeBrace :: ts).foldlM step (.after v (.object before key :: frames)) =
      ts.foldlM step (.after (.object (before ++ (key, v) :: fields)) frames) := by
  induction fields generalizing before key v with
  | nil =>
    rw [← put_of_notMem (notMem_of_nodup hnodup)]
    exact foldlM_step_cons _ rfl ts
  | cons f fields ih =>
    obtain ⟨hf, hfields⟩ := List.forall_mem_cons.1 h
    have hnodup' : ((before ++ [(key, v)] ++ (f.1, f.2) :: fields).map Prod.fst).Nodup := by
      simpa using hnodup
    rw [List.flatMap_cons, List.append_assoc, List.cons_append,
      foldlM_step_cons (.key (put key v before) false frames) rfl, foldlM_step_field hf,
      put_of_notMem (notMem_of_nodup hnodup), ih hfields _ _ _ hnodup', List.append_assoc,
      List.singleton_append]

/-- The first item of an array is taken like any other one. -/
theorem foldlM_step_item {v : Json} (h : v.Textual) (frames : List Frame) (ts : List Token) :
    (v.tokens ++ ts).foldlM step (.item frames) =
      (v.tokens ++ ts).foldlM step (.value (.array [] :: frames)) := by
  cases h with
  | _ => rfl

theorem takes_of_textual {v : Json} (h : v.Textual) : Takes v := by
  induction h with
  | string s =>
    intro frames ts
    exact foldlM_step_cons _ rfl ts
  | @array items hitems ih =>
    intro frames ts
    rw [tokens, tokensOfItems_eq_map]
    cases items with
    | nil => rfl
    | cons v items =>
      have hrest : ∀ w ∈ items, Takes w := fun w hw => ih w (List.mem_cons_of_mem v hw)
      rw [List.map_cons, intercalate_cons, List.flatMap_map, List.append_assoc, List.cons_append,
        foldlM_step_cons (.item frames) rfl, List.append_assoc,
        foldlM_step_item (hitems v List.mem_cons_self), ih v List.mem_cons_self]
      exact foldlM_step_items hrest [] v frames ts
  | @object fields hnodup hfields ih =>
    intro frames ts
    rw [tokens, tokensOfFields_eq_map]
    cases fields with
    | nil => rfl
    | cons f fields =>
      have hrest : ∀ g ∈ fields, Takes g.2 := fun g hg => ih g (List.mem_cons_of_mem f hg)
      rw [List.map_cons, intercalate_cons, List.flatMap_map, List.append_assoc, List.cons_append,
        foldlM_step_cons (.key [] true frames) rfl, List.append_assoc,
        foldlM_step_field (ih f List.mem_cons_self)]
      exact foldlM_step_fields hrest [] f.1 f.2 hnodup frames ts

end State

/-- A value made of texts is read as what was written. -/
theorem Textual.read_write {v : Json} (h : v.Textual) : read v.write = .ok v := by
  have hempty : all [] = [] := all_of_dropWhile_eq_nil rfl
  have htokens := (h.reads 0).all_append []
  rw [List.append_nil, hempty] at htokens
  rw [read, write, htokens, State.takes_of_textual h]
  rfl

end Json

/-! ### Listings -/

namespace Listing

theorem textual_toJson (g : Group) : g.toJson.Textual := by
  have hkeys : ["title".toList, "warnings".toList].Nodup := by decide
  refine .object hkeys ?_
  intro f hf
  rcases List.mem_cons.1 hf with rfl | hf
  · exact .string g.title
  · rw [List.mem_singleton.1 hf]
    refine .array ?_
    simp only [List.mem_map, forall_exists_index, and_imp, forall_apply_eq_imp_iff₂]
    exact fun w _ => .string w

theorem textual_groups (groups : List Group) : (Json.array (groups.map Group.toJson)).Textual := by
  refine .array ?_
  simp only [List.mem_map, forall_exists_index, and_imp, forall_apply_eq_imp_iff₂]
  exact fun g _ => textual_toJson g

theorem toJson_injective : Function.Injective Group.toJson := by
  rintro ⟨title, warnings⟩ ⟨title', warnings'⟩ h
  have hstring : Function.Injective Json.string := fun _ _ => Json.string.inj
  simp only [Group.toJson, Json.object.injEq, List.cons.injEq, Prod.mk.injEq, Json.string.injEq,
    Json.array.injEq, true_and, and_true] at h
  rw [h.1, hstring.list_map h.2]

/-- A listing in JSON is ASCII, a reader finds the titles and the warnings of the groups in it, and
so no two listings are the same text. -/
theorem json_tells_groups :
    (∀ groups : List Group, (∀ c ∈ json groups, c.toNat < 128) ∧
      Json.read (json groups) = .ok (.array (groups.map fun g =>
        .object [("title".toList, .string g.title),
          ("warnings".toList, .array (g.warnings.map .string))]))) ∧
    Function.Injective json := by
  have hread (groups : List Group) :
      Json.read (json groups) = .ok (.array (groups.map Group.toJson)) :=
    (textual_groups groups).read_write
  refine ⟨fun groups => ⟨((textual_groups groups).reads 0).ascii, hread groups⟩, ?_⟩
  intro groups groups' h
  have hsame := (hread groups).symm.trans ((congrArg Json.read h).trans (hread groups'))
  exact toJson_injective.list_map (Json.array.inj (Except.ok.inj hsame))

end Listing

end DesignRecipe
