import DesignRecipe.Program
import DesignRecipe.Proofs.Session.Dialogue

/-!
# Exit codes of sessions

The exit code is that of the last check at a prompt. What the check of the request's file came to is
not handed on to the prompts after it: if nothing is checked there, the program ends as if nothing
had been checked at all.
-/
namespace DesignRecipe

namespace Session

/-- The file of the request was checked, prompts followed, and nothing was checked at them. -/
def Unresumed (request : CommandLine.CheckRequest) (s : Session) : Prop :=
  request.interactive = true ∧ (∃ path ∈ request.file, path ≠ []) ∧
    (statuses s.exchanges).length = 1

section outcome

variable (threshold : Nat) (contents : Nat → Contents) {now : Contents}
  {request : CommandLine.CheckRequest} {answers : List (Option Text)}

theorem filter_nonempty_eq_none_iff :
    request.file.filter (!·.isEmpty) = none ↔ ¬ ∃ path ∈ request.file, path ≠ [] := by
  cases request.file <;> simp [Option.filter]

theorem statuses_check_cons (path : Text) (exchanges : List Exchange) :
    statuses (.check threshold now path :: exchanges) =
      (checkFile threshold path (now path)).1.exitStatus :: statuses exchanges := rfl

/-- How a session ends, by its checks. -/
theorem outcome_run (hfile : ∀ path ∈ request.file, '\x00' ∉ path)
    (hanswers : ∀ answer, some answer ∈ answers → '\x00' ∉ answer) :
    let s := run (checkers threshold contents) request answers
    (Unresumed request s → s.outcome = .ok .clean) ∧
      (¬ Unresumed request s → s.outcome = .ok ((statuses s.exchanges).getLast?.getD .clean)) := by
  intro s
  rcases run_cases threshold contents answers hfile with
    ⟨hpath, hrun⟩ | ⟨path, hpath, hnull, ⟨hinteractive, hrun⟩ | ⟨hinteractive, hrun⟩⟩
  · have hs : s = converse (checkers threshold (later contents)) .fresh answers := hrun
    rw [filter_nonempty_eq_none_iff] at hpath
    refine ⟨fun h => absurd h.2.1 hpath, fun _ => ?_⟩
    rw [hs]
    exact outcome_converse threshold Memory.not_mem_fresh hanswers
  · -- The check of the request's file is the first of all, and it counts only for the path.
    have hs : s = _ := hrun
    have hafter := Memory.not_mem_of_afterFile (checkFile threshold path (contents 0 path)).1 hnull
    generalize hprompts : converse (checkers threshold (later contents))
      (.afterFile path (checkFile threshold path (contents 0 path)).1) answers = prompts at hs
    have houtcome : prompts.outcome = .ok ((statuses prompts.exchanges).getLast?.getD .clean) := by
      rw [← hprompts]
      exact outcome_converse threshold hafter hanswers
    have hfound : ∃ path ∈ request.file, path ≠ [] := by
      obtain ⟨hfile, hnonempty⟩ := Option.filter_eq_some_iff.1 hpath
      exact ⟨path, hfile, by simpa using hnonempty⟩
    simp only [Unresumed, hinteractive, hfound, true_and]
    rw [hs]
    simp only [preceded, List.singleton_append, statuses_check_cons, List.length_cons,
      List.getLast?_cons, houtcome]
    rcases statuses prompts.exchanges with _ | ⟨status, others⟩
    · exact ⟨fun _ => rfl, fun h => absurd rfl h⟩
    · refine ⟨fun h => absurd h (by simp), fun _ => ?_⟩
      simp [List.getLast?_cons]
  · have hs : s = _ := hrun
    refine ⟨fun h => absurd h.1 (by simp [hinteractive]), fun _ => ?_⟩
    rw [hs]
    rfl

end outcome

end Session

namespace Program

open Session

theorem code_exitStatus (result : CheckResult) :
    result.exitStatus.code = match result with
      | .reviewed [] => 0
      | .reviewed _ => 1
      | _ => 2 := by
  rcases result with _ | _ | _ | _ | (_ | _) <;> rfl

theorem code_exitStatus_eq_zero_iff {result : CheckResult} :
    result.exitStatus.code = 0 ↔ result = .reviewed [] := by
  rcases result with _ | _ | _ | _ | (_ | _) <;> simp [code_exitStatus]

/-- A session exits with the code of its last check, and with zero if nothing was checked or if
nothing was checked at the prompts after the file of the request. But for the latter, it never exits
with zero after a last check that gave warnings or met a fault. -/
theorem exit_check_eq_last_status (around : Surroundings) (verbose : Bool)
    (request : CommandLine.CheckRequest) (n : Nat)
    (hsetting : threshold around.minTests request = .ok n)
    (hfile : ∀ path ∈ request.file, '\x00' ∉ path)
    (hanswers : ∀ answer, some answer ∈ around.answers → '\x00' ∉ answer) :
    let s := Session.run (checkers n around.contents) request around.answers
    (check around verbose request).out = s.printed request.asJson ∧
      (Unresumed request s → (check around verbose request).exit = .finished 0) ∧
      (¬ Unresumed request s →
        (check around verbose request).exit =
            .finished ((statuses s.exchanges).getLast?.getD .clean).code ∧
          ∀ result, (results s.exchanges).getLast? = some result →
            (check around verbose request).exit = .finished (match result with
              | .reviewed [] => 0
              | .reviewed _ => 1
              | _ => 2) ∧
            (result ≠ .reviewed [] → (check around verbose request).exit ≠ .finished 0)) := by
  intro s
  obtain ⟨hunresumed, hresumed⟩ := outcome_run n around.contents hfile hanswers
  have hcheck (status : ExitStatus) (h : s.outcome = .ok status) :
      (check around verbose request).out = s.printed request.asJson ∧
        (check around verbose request).exit = .finished status.code := by
    unfold check
    simp only [hsetting]
    rw [show (Session.run (checkers n around.contents) request around.answers).outcome =
      .ok status from h]
    exact ⟨rfl, rfl⟩
  by_cases hs : Unresumed request s
  · obtain ⟨hout, hexit⟩ := hcheck .clean (hunresumed hs)
    exact ⟨hout, fun _ => hexit, fun h => absurd hs h⟩
  · obtain ⟨hout, hexit⟩ := hcheck _ (hresumed hs)
    refine ⟨hout, fun h => absurd h hs, fun _ => ⟨hexit, ?_⟩⟩
    intro result hlast
    have hresult : (check around verbose request).exit = .finished result.exitStatus.code := by
      rw [hexit, statuses, List.getLast?_map, hlast]
      rfl
    refine ⟨by rw [hresult, code_exitStatus], ?_⟩
    intro hne
    rw [hresult]
    simpa [code_exitStatus_eq_zero_iff] using hne

/-- A file that is missing, but holds a syntax fault when it is asked for at the prompt. -/
theorem exit_check_eq_last_status_of_again :
    let around : Surroundings :=
      ⟨none, fun k _ => if k = 0 then .error .notFound else .ok [0x29], [some ['a'], none]⟩
    let request : CommandLine.CheckRequest := ⟨some ['a'], true, none, false⟩
    let s := Session.run (checkers 2 around.contents) request around.answers
    threshold around.minTests request = .ok 2 ∧
      results s.exchanges = [.notFound, .syntaxFault .strayCloser] ∧
      (check around false request).exit = .finished 2 := by
  intro around request s
  have hsetting : threshold around.minTests request = .ok 2 := rfl
  have hmissing : checkers 2 around.contents 0 ['a'] = .ok (.notFound, []) := rfl
  have hfault : later (checkers 2 around.contents) 0 ['a'] =
      .ok (.syntaxFault .strayCloser, [.strayCloser 1]) :=
    congrArg Except.ok (checkFile_stray 2 ['a'])
  have htyped : Text.strip ['a'] = ['a'] := by decide
  have hresults : results s.exchanges = [.notFound, .syntaxFault .strayCloser] := by
    simp [s, around, request, Session.run, Option.filter, hmissing, hfault, converse, answered,
      Memory.chosen, Memory.afterFile, Memory.record, CheckResult.isChecked, preceded, htyped,
      results, List.filterMap_cons, Exchange.result?]
  have hresumed : ¬ Unresumed request s := by
    simp [Unresumed, statuses, hresults]
  have hexit := exit_check_eq_last_status around false request 2 hsetting (by simp [request])
    (by simp [around])
  refine ⟨hsetting, hresults, ?_⟩
  exact ((hexit.2.2 hresumed).2 (.syntaxFault .strayCloser) (by rw [hresults]; rfl)).1

/-- A file with a syntax fault, and an end at the prompt after it: a session does not always exit
with the code of its last check. -/
theorem exists_exit_check_ne_last_status :
    ¬ ∀ (around : Surroundings) (verbose : Bool) (request : CommandLine.CheckRequest) (n : Nat),
      threshold around.minTests request = .ok n → (∀ path ∈ request.file, '\x00' ∉ path) →
      (∀ answer, some answer ∈ around.answers → '\x00' ∉ answer) →
        (check around verbose request).exit =
          .finished ((statuses (Session.run (checkers n around.contents) request
            around.answers).exchanges).getLast?.getD .clean).code := by
  intro hall
  have hfault : checkers 2 (fun _ _ => .ok [0x29]) 0 ['a'] =
      .ok (.syntaxFault .strayCloser, [.strayCloser 1]) :=
    congrArg Except.ok (checkFile_stray 2 ['a'])
  have hexit := hall ⟨none, fun _ _ => .ok [0x29], []⟩ false ⟨some ['a'], true, none, false⟩ 2 rfl
    (by simp) (by simp)
  have hsetting : threshold none ⟨some ['a'], true, none, false⟩ = .ok 2 := rfl
  simp [check, hsetting, Session.run, Option.filter, hfault, converse, Memory.afterFile, preceded,
    statuses, results, List.filterMap_cons, Exchange.result?, CheckResult.exitStatus, Run.finish,
    ExitStatus.code] at hexit

end Program

end DesignRecipe
