import DesignRecipe.Session
import Mathlib.Tactic.SplitIfs

/-!
# Dialogues

At a prompt an answer asks for one file or for none, and then the next prompt comes. What is known
of sessions is proved answer by answer, for paths without the null character and files that may
change in between. The path at a prompt is that of the last file of the session that was really
checked, the file of the request included.
-/
namespace DesignRecipe.Session

section dialogue

variable (threshold : Nat)

/-- The check of the file at a path, with the files as they are now. -/
def Exchange.check (now : Contents) (path : Text) : Exchange :=
  .checked path (checkFile threshold path (now path)).1 (checkFile threshold path (now path)).2

/-- What is exchanged from a prompt on, answer by answer. The next answer has the number `k`, and
finds the files as in `contents k`. The path that a prompt shows is left open. -/
inductive Dialogue (contents : Nat → Contents) : Nat → List (Option Text) → List Exchange → Prop
  | ended {k : Nat} (shown : Option Text) : Dialogue contents k [] [.prompted shown, .leftPrompt]
  | interrupted {k : Nat} (shown : Option Text) (unread : List (Option Text)) :
    Dialogue contents k (none :: unread) [.prompted shown, .leftPrompt]
  | typed {k : Nat} {answer : Text} {answers : List (Option Text)} {exchanges : List Exchange}
    (shown : Option Text) :
    Text.strip answer ≠ [] → Dialogue contents (k + 1) answers exchanges →
      Dialogue contents k (some answer :: answers)
        (.prompted shown :: .check threshold (contents k) (Text.strip answer) :: .paused ::
          exchanges)
  | again {k : Nat} {answer : Text} {answers : List (Option Text)} {exchanges : List Exchange}
    (shown : Text) :
    Text.strip answer = [] → Dialogue contents (k + 1) answers exchanges →
      Dialogue contents k (some answer :: answers)
        (.prompted (some shown) :: .check threshold (contents k) shown :: .paused :: exchanges)
  | blank {k : Nat} {answer : Text} {answers : List (Option Text)} {exchanges : List Exchange} :
    Text.strip answer = [] → Dialogue contents (k + 1) answers exchanges →
      Dialogue contents k (some answer :: answers) (.prompted none :: exchanges)

end dialogue

/-- The path of a file that was read and found to be a program text, right or wrong. -/
def Exchange.readPath? : Exchange → Option Text
  | .checked path (.syntaxFault _) _ => some path
  | .checked path (.reviewed _) _ => some path
  | _ => none

/-- The path of the last file that was really checked. -/
def lastChecked (exchanges : List Exchange) : Option Text :=
  (exchanges.filterMap Exchange.readPath?).getLast?

/-- Every prompt shows the path of the last file that was really checked before it, if `before` has
happened at the start. -/
def Remembering (before exchanges : List Exchange) : Prop :=
  ∀ front shown back, exchanges = front ++ .prompted shown :: back →
    shown = lastChecked (before ++ front)

def Exchange.result? : Exchange → Option CheckResult
  | .checked _ result _ => some result
  | _ => none

/-- What the checks came to, in order. -/
def results (exchanges : List Exchange) : List CheckResult :=
  exchanges.filterMap Exchange.result?

/-- How the checks ended, in order. -/
def statuses (exchanges : List Exchange) : List ExitStatus :=
  (results exchanges).map CheckResult.exitStatus

section remembering

variable {before exchanges more : List Exchange} {e : Exchange}

theorem readPath?_checked (path : Text) (result : CheckResult) (trace : Trace) :
    (Exchange.checked path result trace).readPath? =
      if result.isChecked then some path else none := by
  cases result <;> rfl

theorem lastChecked_concat (before : List Exchange) (e : Exchange) :
    lastChecked (before ++ [e]) = e.readPath?.or (lastChecked before) := by
  rw [lastChecked, List.filterMap_append, List.getLast?_append, lastChecked]
  cases he : e.readPath? <;> simp [he]

theorem remembering_nil (before : List Exchange) : Remembering before [] := by
  intro front shown back h
  simp at h

theorem remembering_cons :
    Remembering before (e :: exchanges) ↔
      (∀ shown, e = .prompted shown → shown = lastChecked before) ∧
        Remembering (before ++ [e]) exchanges := by
  constructor
  · intro h
    constructor
    · rintro shown rfl
      simpa using h [] shown exchanges rfl
    · rintro front shown back rfl
      simpa using h (e :: front) shown back rfl
  · rintro ⟨hfirst, hothers⟩ front shown back heq
    cases front with
    | nil =>
      obtain ⟨rfl, rfl⟩ := List.cons.inj heq
      simpa using hfirst shown rfl
    | cons e' front =>
      obtain ⟨rfl, rfl⟩ := List.cons.inj heq
      simpa using hothers front shown back rfl

end remembering

/-! ### Answer by answer -/

section answers

variable (threshold : Nat) {contents : Nat → Contents} {m : Memory} {answer path : Text}
  {answers : List (Option Text)}

theorem mem_of_mem_strip {c : Char} {s : Text} (h : c ∈ Text.strip s) : c ∈ s := by
  unfold Text.strip Text.trim at h
  have hfront := (List.dropWhile_suffix _).mem (List.mem_reverse.1 h)
  exact (List.dropWhile_suffix _).mem (List.mem_reverse.1 hfront)

theorem checkers_eq_ok (contents : Nat → Contents) (k : Nat) (h : '\x00' ∉ path) :
    checkers threshold contents k path = .ok (checkFile threshold path (contents k path)) := by
  simp [checkers, checker, h]

theorem later_checkers (contents : Nat → Contents) :
    later (checkers threshold contents) = checkers threshold (later contents) := rfl

/-- What an answer asks for can be asked for, if it can be typed and what is remembered can be
asked for. -/
theorem Memory.not_mem_of_chosen (hm : ∀ p ∈ m.path, '\x00' ∉ p) (hanswer : '\x00' ∉ answer)
    (h : m.chosen answer = some path) : '\x00' ∉ path := by
  unfold chosen at h
  dsimp only at h
  split_ifs at h
  · exact hm path h
  · cases h
    exact mt mem_of_mem_strip hanswer

theorem Memory.not_mem_of_record {result : CheckResult} (hm : ∀ p ∈ m.path, '\x00' ∉ p)
    (hpath : '\x00' ∉ path) : ∀ p ∈ (m.record path result).path, '\x00' ∉ p := by
  intro p hp
  unfold record at hp
  dsimp only at hp
  split_ifs at hp
  · cases hp
    exact hpath
  · exact hm p hp

/-- What holds of sessions from a prompt on, whatever is remembered there and however the files
change, is proved for the ways in which an answer can be replied to. -/
theorem converse_induction
    {motive : (Nat → Contents) → Memory → List (Option Text) → Session → Prop}
    (ended : ∀ contents m, motive contents m [] ⟨[.prompted m.path, .leftPrompt], .ok m.status⟩)
    (interrupted : ∀ contents m answers,
      motive contents m (none :: answers) ⟨[.prompted m.path, .leftPrompt], .ok m.status⟩)
    (ignored : ∀ contents m answer answers s, m.chosen answer = none →
      motive (later contents) m answers s →
        motive contents m (some answer :: answers) (s.preceded [.prompted m.path]))
    (replied : ∀ contents m answer answers s path, m.chosen answer = some path →
      motive (later contents) (m.record path (checkFile threshold path (contents 0 path)).1)
          answers s →
        motive contents m (some answer :: answers)
          (s.preceded [.prompted m.path, .check threshold (contents 0) path, .paused]))
    (hm : ∀ p ∈ m.path, '\x00' ∉ p) (hanswers : ∀ answer, some answer ∈ answers → '\x00' ∉ answer) :
    motive contents m answers (converse (checkers threshold contents) m answers) := by
  induction answers generalizing contents m with
  | nil => exact ended contents m
  | cons answer answers ih =>
    cases answer with
    | none => exact interrupted contents m answers
    | some answer =>
      have hanswer : '\x00' ∉ answer := hanswers answer List.mem_cons_self
      have hothers : ∀ other, some other ∈ answers → '\x00' ∉ other := by
        intro other hother
        exact hanswers other (List.mem_cons_of_mem _ hother)
      rw [converse, answered, later_checkers]
      cases hchosen : m.chosen answer with
      | none => exact ignored contents m answer answers _ hchosen (ih hm hothers)
      | some path =>
        have hpath := Memory.not_mem_of_chosen hm hanswer hchosen
        simp only [checkers_eq_ok threshold contents 0 hpath]
        exact replied contents m answer answers _ path hchosen
          (ih (Memory.not_mem_of_record hm hpath) hothers)

theorem Memory.chosen_eq_none_iff :
    m.chosen answer = none ↔ Text.strip answer = [] ∧ m.path = none := by
  unfold chosen
  by_cases h : Text.strip answer = [] <;> simp [h]

theorem Memory.chosen_eq_some_iff :
    m.chosen answer = some path ↔
      Text.strip answer ≠ [] ∧ Text.strip answer = path ∨
        Text.strip answer = [] ∧ m.path = some path := by
  unfold chosen
  by_cases h : Text.strip answer = [] <;> simp [h]

theorem later_eq_of_shifted {remaining : Nat → Contents} {k : Nat}
    (h : ∀ i, remaining i = contents (k + i)) : ∀ i, later remaining i = contents (k + 1 + i) := by
  intro i
  rw [later, h, Nat.add_comm i 1, ← Nat.add_assoc]

theorem dialogue_converse {remaining : Nat → Contents} {k : Nat}
    (hremaining : ∀ i, remaining i = contents (k + i)) (hm : ∀ p ∈ m.path, '\x00' ∉ p)
    (hanswers : ∀ answer, some answer ∈ answers → '\x00' ∉ answer) :
    Dialogue threshold contents k answers
      (converse (checkers threshold remaining) m answers).exchanges := by
  refine converse_induction threshold
    (motive := fun remaining _ answers s => ∀ k, (∀ i, remaining i = contents (k + i)) →
      Dialogue threshold contents k answers s.exchanges)
    ?_ ?_ ?_ ?_ hm hanswers k hremaining
  · intro remaining m k _
    exact .ended m.path
  · intro remaining m answers k _
    exact .interrupted m.path answers
  · intro remaining m answer answers s hchosen ih k hk
    obtain ⟨hblank, hpath⟩ := Memory.chosen_eq_none_iff.1 hchosen
    rw [hpath]
    exact .blank hblank (ih (k + 1) (later_eq_of_shifted hk))
  · intro remaining m answer answers s path hchosen ih k hk
    have hothers := ih (k + 1) (later_eq_of_shifted hk)
    rw [show remaining 0 = contents k from hk 0]
    rcases Memory.chosen_eq_some_iff.1 hchosen with ⟨htyped, rfl⟩ | ⟨hblank, hpath⟩
    · exact .typed m.path htyped hothers
    · rw [hpath]
      exact .again path hblank hothers

/-- The last check at a prompt decides how a session ends. -/
theorem outcome_converse (hm : ∀ p ∈ m.path, '\x00' ∉ p)
    (hanswers : ∀ answer, some answer ∈ answers → '\x00' ∉ answer) :
    (converse (checkers threshold contents) m answers).outcome =
      .ok ((statuses (converse (checkers threshold contents) m answers).exchanges).getLast?.getD
        m.status) := by
  refine converse_induction threshold
    (motive := fun _ m _ s => s.outcome = .ok ((statuses s.exchanges).getLast?.getD m.status))
    ?_ ?_ ?_ ?_ hm hanswers
  · intro contents m
    rfl
  · intro contents m answers
    rfl
  · intro contents m answer answers s _ ih
    exact ih
  · intro contents m answer answers s path _ ih
    have hstatuses : statuses (s.preceded [.prompted m.path, .check threshold (contents 0) path,
        .paused]).exchanges =
          (checkFile threshold path (contents 0 path)).1.exitStatus :: statuses s.exchanges := rfl
    rw [hstatuses, List.getLast?_cons]
    exact ih

/-- What is remembered at the first prompt is remembered as it should be at all of them. -/
theorem remembering_converse {before : List Exchange} (hbefore : m.path = lastChecked before)
    (hm : ∀ p ∈ m.path, '\x00' ∉ p)
    (hanswers : ∀ answer, some answer ∈ answers → '\x00' ∉ answer) :
    Remembering before (converse (checkers threshold contents) m answers).exchanges := by
  have hend (before : List Exchange) (m : Memory) (h : m.path = lastChecked before) :
      Remembering before [.prompted m.path, .leftPrompt] := by
    rw [remembering_cons, remembering_cons]
    refine ⟨?_, nofun, remembering_nil _⟩
    rintro shown ⟨⟩
    exact h
  refine converse_induction threshold
    (motive := fun _ m _ s =>
      ∀ before, m.path = lastChecked before → Remembering before s.exchanges)
    ?_ ?_ ?_ ?_ hm hanswers before hbefore
  · intro contents m before h
    exact hend before m h
  · intro contents m answers before h
    exact hend before m h
  · intro contents m answer answers s _ ih before h
    rw [preceded, List.singleton_append, remembering_cons]
    refine ⟨?_, ih _ ?_⟩
    · rintro shown ⟨⟩
      exact h
    · rw [lastChecked_concat, h]
      rfl
  · intro contents m answer answers s path _ ih before h
    rw [preceded]
    simp only [List.cons_append, List.nil_append, remembering_cons]
    refine ⟨?_, nofun, nofun, ih _ ?_⟩
    · rintro shown ⟨⟩
      exact h
    · rw [lastChecked_concat, lastChecked_concat, lastChecked_concat, Exchange.check,
        readPath?_checked, Memory.record, h]
      split_ifs <;> rfl

end answers

/-! ### Whole sessions -/

section session

variable (threshold : Nat) (contents : Nat → Contents) {path : Text}
  {request : CommandLine.CheckRequest} {answers : List (Option Text)}

/-- A file is checked if it can be read and holds no pictures. -/
theorem readPath?_check_eq_none_iff (now : Contents) (path : Text) :
    (Exchange.check threshold now path).readPath? = none ↔
      (∃ fault, readSource (now path) = .error fault) ∨
        ∃ code, readSource (now path) = .ok code ∧ hasPictures code = true := by
  rw [Exchange.check, checkFile]
  cases hread : readSource (now path) with
  | error fault =>
    rcases fault with (_ | _ | _ | _ | _) | _ <;> simp [readPath?_checked, CheckResult.isChecked]
  | ok code =>
    by_cases hpictures : hasPictures code = true
    · simp [hpictures, Exchange.readPath?]
    · cases hresult : (assess code threshold).result <;>
        simp [hpictures, hresult, Exchange.readPath?]

/-- The ways in which a session goes on from its request. -/
theorem run_cases (answers : List (Option Text))
    (hfile : ∀ path ∈ request.file, '\x00' ∉ path) :
    (request.file.filter (!·.isEmpty) = none ∧
        run (checkers threshold contents) request answers =
          converse (checkers threshold (later contents)) .fresh answers) ∨
      ∃ path, request.file.filter (!·.isEmpty) = some path ∧ '\x00' ∉ path ∧
        ((request.interactive = true ∧
            run (checkers threshold contents) request answers =
              (converse (checkers threshold (later contents))
                (.afterFile path (checkFile threshold path (contents 0 path)).1) answers).preceded
                  [.check threshold (contents 0) path]) ∨
          (request.interactive = false ∧
            run (checkers threshold contents) request answers =
              ⟨[.check threshold (contents 0) path],
                .ok (checkFile threshold path (contents 0 path)).1.exitStatus⟩)) := by
  unfold run
  rw [later_checkers]
  cases hpath : request.file.filter (!·.isEmpty) with
  | none => exact .inl ⟨rfl, rfl⟩
  | some path =>
    have hnull : '\x00' ∉ path := hfile path (Option.filter_eq_some_iff.1 hpath).1
    refine .inr ⟨path, rfl, hnull, ?_⟩
    simp only [checkers_eq_ok threshold contents 0 hnull]
    cases request.interactive
    · exact .inr ⟨rfl, rfl⟩
    · exact .inl ⟨rfl, rfl⟩

theorem Memory.not_mem_of_afterFile (result : CheckResult) (hpath : '\x00' ∉ path) :
    ∀ p ∈ (Memory.afterFile path result).path, '\x00' ∉ p := by
  intro p hp
  unfold afterFile at hp
  dsimp only at hp
  split_ifs at hp
  · cases hp
    exact hpath
  · cases hp

/-- The file of the request is remembered like those of the answers. -/
theorem Memory.path_afterFile (now : Contents) (path : Text) :
    (Memory.afterFile path (checkFile threshold path (now path)).1).path =
      lastChecked ([] ++ [.check threshold now path]) := by
  rw [lastChecked_concat, Exchange.check, readPath?_checked, afterFile]
  split_ifs <;> rfl

theorem Memory.not_mem_fresh : ∀ p ∈ fresh.path, '\x00' ∉ p := nofun

theorem exists_outcome_run (hfile : ∀ path ∈ request.file, '\x00' ∉ path)
    (hanswers : ∀ answer, some answer ∈ answers → '\x00' ∉ answer) :
    ∃ status, (run (checkers threshold contents) request answers).outcome = .ok status := by
  rcases run_cases threshold contents answers hfile with
    ⟨-, hrun⟩ | ⟨path, -, hnull, ⟨-, hrun⟩ | ⟨-, hrun⟩⟩
  · rw [hrun]
    exact ⟨_, outcome_converse threshold Memory.not_mem_fresh hanswers⟩
  · rw [hrun]
    exact ⟨_, outcome_converse threshold (Memory.not_mem_of_afterFile _ hnull) hanswers⟩
  · rw [hrun]
    exact ⟨_, rfl⟩

theorem remembering_run (hfile : ∀ path ∈ request.file, '\x00' ∉ path)
    (hanswers : ∀ answer, some answer ∈ answers → '\x00' ∉ answer) :
    Remembering [] (run (checkers threshold contents) request answers).exchanges := by
  rcases run_cases threshold contents answers hfile with
    ⟨-, hrun⟩ | ⟨path, -, hnull, ⟨-, hrun⟩ | ⟨-, hrun⟩⟩
  · rw [hrun]
    exact remembering_converse threshold rfl Memory.not_mem_fresh hanswers
  · have hafter := Memory.not_mem_of_afterFile (checkFile threshold path (contents 0 path)).1 hnull
    rw [hrun, preceded, List.singleton_append, remembering_cons]
    exact ⟨nofun, remembering_converse threshold
      (Memory.path_afterFile threshold (contents 0) path) hafter hanswers⟩
  · rw [hrun, remembering_cons]
    exact ⟨nofun, remembering_nil _⟩

/-- The check of the request's file, if there is one, and then what is exchanged at the prompts. -/
theorem exchanges_run (hfile : ∀ path ∈ request.file, '\x00' ∉ path)
    (hanswers : ∀ answer, some answer ∈ answers → '\x00' ∉ answer) :
    let s := run (checkers threshold contents) request answers
    match request.file.filter (!·.isEmpty) with
    | none => Dialogue threshold contents 1 answers s.exchanges
    | some path =>
      if request.interactive then
        ∃ dialogue, Dialogue threshold contents 1 answers dialogue ∧
          s.exchanges = .check threshold (contents 0) path :: dialogue
      else s.exchanges = [.check threshold (contents 0) path] := by
  dsimp only
  have hlater (i : Nat) : later contents i = contents (1 + i) :=
    congrArg contents (Nat.add_comm i 1)
  rcases run_cases threshold contents answers hfile with
    ⟨hpath, hrun⟩ | ⟨path, hpath, hnull, ⟨hinteractive, hrun⟩ | ⟨hinteractive, hrun⟩⟩
  · rw [hrun, hpath]
    exact dialogue_converse threshold hlater Memory.not_mem_fresh hanswers
  · have hafter := Memory.not_mem_of_afterFile (checkFile threshold path (contents 0 path)).1 hnull
    rw [hrun, hpath, hinteractive]
    exact ⟨_, dialogue_converse threshold hlater hafter hanswers, rfl⟩
  · rw [hrun, hpath, hinteractive]
    rfl

/-- A prompt is printed with the path that it shows between what was printed before and what is
printed later. -/
theorem Remembering.printed {s : Session} (hprompts : Remembering [] s.exchanges)
    {before after : List Exchange} {shown : Option Text}
    (h : s.exchanges = before ++ .prompted shown :: after) :
    shown = lastChecked before ∧
      ∀ asJson, s.printed asJson = before.flatMap (Exchange.printed asJson) ++
        ((lastChecked before).elim "Input path of file to check: ".toList fun path =>
          "Input path of file to check [".toList ++ path ++ "]: ".toList) ++
        after.flatMap (Exchange.printed asJson) := by
  obtain rfl : shown = lastChecked before := hprompts before shown after h
  refine ⟨rfl, ?_⟩
  intro asJson
  rw [Session.printed, h, List.flatMap_append, List.flatMap_cons, List.append_assoc]
  cases lastChecked before <;> rfl

/-- Every session comes to its end. At each of its prompts the path of the last file is shown that
was really checked, and printed in brackets, and an answer there asks for the path that it is made
of, or for the path shown if it is blank. The request's file is looked up in `contents 0`, and what
the answers ask for in the contents after it. Files that can not be read, or hold pictures, are not
really checked. -/
theorem prompts_show_last_checked (hfile : ∀ path ∈ request.file, '\x00' ∉ path)
    (hanswers : ∀ answer, some answer ∈ answers → '\x00' ∉ answer) :
    let s := run (checkers threshold contents) request answers
    (∃ status, s.outcome = .ok status) ∧
      (∀ before shown after, s.exchanges = before ++ .prompted shown :: after →
        shown = lastChecked before ∧
          ∀ asJson, s.printed asJson = before.flatMap (Exchange.printed asJson) ++
            ((lastChecked before).elim "Input path of file to check: ".toList fun path =>
              "Input path of file to check [".toList ++ path ++ "]: ".toList) ++
            after.flatMap (Exchange.printed asJson)) ∧
      (match request.file.filter (!·.isEmpty) with
        | none => Dialogue threshold contents 1 answers s.exchanges
        | some path =>
          if request.interactive then
            ∃ dialogue, Dialogue threshold contents 1 answers dialogue ∧
              s.exchanges = .check threshold (contents 0) path :: dialogue
          else s.exchanges = [.check threshold (contents 0) path]) ∧
      ∀ now path, (Exchange.check threshold now path).readPath? = none ↔
        (∃ fault, readSource (now path) = .error fault) ∨
          ∃ code, readSource (now path) = .ok code ∧ hasPictures code = true := by
  intro s
  have hprompts : Remembering [] s.exchanges := remembering_run threshold contents hfile hanswers
  exact ⟨exists_outcome_run threshold contents hfile hanswers, fun _ _ _ => hprompts.printed,
    exchanges_run threshold contents hfile hanswers, readPath?_check_eq_none_iff threshold⟩

end session

/-- The check of a file that holds a closing bracket. -/
theorem checkFile_stray (threshold : Nat) (path : Text) :
    checkFile threshold path (.ok [0x29]) = (.syntaxFault .strayCloser, [.strayCloser 1]) := by
  have hread : readSource (.ok [0x29]) = .ok [')'] := rfl
  have hpictures : hasPictures [')'] = false := by decide
  have hstep : Reader.read [')'] = (Reader.ofText [')']).step := by
    rw [Reader.read, ← Reader.run_step rfl, Reader.run_of_ended (by decide)]
  have hassess : assess [')'] threshold = ⟨.error .strayCloser, [.strayCloser 1]⟩ := by
    rw [assess, hstep]
    rfl
  simp [checkFile, hread, hpictures, hassess]

/-- A file with a syntax fault is remembered over a missing file, and a blank answer asks for it
again, even if it has been taken away in between. -/
theorem prompts_show_last_checked_of_missing :
    let contents : Nat → Contents := fun k path =>
      if path = ['a'] ∧ k ≤ 1 then .ok [0x29] else .error .notFound
    let s := run (checkers 2 contents) ⟨some ['a'], true, none, false⟩ [some ['b'], some [' '], none]
    let fault : Exchange := .checked ['a'] (.syntaxFault .strayCloser) [.strayCloser 1]
    let missing (path : Text) : Exchange := .checked path .notFound []
    s.exchanges =
        [fault, .prompted (some ['a']), missing ['b'], .paused, .prompted (some ['a']),
          missing ['a'], .paused, .prompted (some ['a']), .leftPrompt] ∧
      some ['a'] = lastChecked [fault, .prompted (some ['a']), missing ['b'], .paused] ∧
      s.printed false = "Syntax error in file: trailing characters\n".toList ++
        "Input path of file to check [a]: File not found\n\n\n".toList ++
        "Input path of file to check [a]: ".toList ++
        "File not found\n\n\nInput path of file to check [a]: \n".toList := by
  intro contents s fault missing
  have hfault : checkers 2 contents 0 ['a'] = .ok (.syntaxFault .strayCloser, [.strayCloser 1]) :=
    congrArg Except.ok (checkFile_stray 2 ['a'])
  have hmissing : later (checkers 2 contents) 0 ['b'] = .ok (.notFound, []) := rfl
  have hgone : later (later (checkers 2 contents)) 0 ['a'] = .ok (.notFound, []) := rfl
  have htyped : Text.strip ['b'] = ['b'] := by decide
  have hblank : Text.strip [' '] = [] := by decide
  have hexchanges : s.exchanges =
      [fault, .prompted (some ['a']), missing ['b'], .paused, .prompted (some ['a']),
        missing ['a'], .paused, .prompted (some ['a']), .leftPrompt] := by
    simp [s, run, Option.filter, hfault, hmissing, hgone, converse, answered, Memory.chosen,
      Memory.afterFile, Memory.record, CheckResult.isChecked, preceded, htyped, hblank, fault,
      missing]
  have hprompts := @prompts_show_last_checked 2 contents ⟨some ['a'], true, none, false⟩
    [some ['b'], some [' '], none] (by simp) (by simp)
  obtain ⟨hshown, hprinted⟩ :=
    hprompts.2.1 [fault, .prompted (some ['a']), missing ['b'], .paused] _ _ hexchanges
  exact ⟨hexchanges, hshown, hprinted false⟩

end DesignRecipe.Session
