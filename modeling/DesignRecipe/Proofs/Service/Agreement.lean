import DesignRecipe.FileCheck
import DesignRecipe.Proofs.Recipe.LineEnding
import DesignRecipe.Proofs.Text.Utf8
import DesignRecipe.Service
import DesignRecipe.Session

/-!
# The service and checking a file

A file is read with unified line ends, while the service takes a program as it is sent. Both say the
same about every program: they find the same fault, or what is printed about the file is what the
service answers, with unified line ends in the warnings.
-/
namespace DesignRecipe

open Text

theorem readSource_encode (s : Text) :
    readSource (.ok (Utf8.encode s)) = .ok (unifyLineEnds s) := by
  rw [readSource, Utf8.decode_encode]

theorem hasPictures_unifyLineEnds {s : Text} (h : hasPictures s = false) :
    hasPictures (unifyLineEnds s) = false := by
  rw [Bool.eq_false_iff] at h ⊢
  intro hunified
  apply h
  exact occurs_of_unifyLineEnds (by decide) (by decide) hunified

/-- A file that holds a program is checked as the program itself would be assessed. -/
theorem checkFile_encode {s : Text} (h : hasPictures s = false) (threshold : ℕ) (path : Text) :
    (checkFile threshold path (.ok (Utf8.encode s))).1 =
      match (assess s threshold).result with
      | .error f => .syntaxFault f
      | .ok groups => .reviewed (groups.map Group.unifyLineEnds) := by
  unfold checkFile
  rw [readSource_encode]
  dsimp only
  rw [hasPictures_unifyLineEnds h, if_neg Bool.false_ne_true, result_assess_unifyLineEnds]
  cases (assess s threshold).result <;> rfl

/-- A program is at fault as its reading is, and is reviewed if its reading is complete. -/
theorem result_assess (code : Text) (threshold : ℕ) :
    (∃ f : SyntaxFault, (Reader.read code).status = f.status ∧
        (assess code threshold).result = .error f) ∨
      (Reader.read code).status = .complete ∧ (assess code threshold).result =
        .ok (Review.ofProgram (Reader.read code).forms threshold).groups := by
  have hended : (Reader.read code).status ≠ .reading := Reader.status_run_ne _
  unfold assess
  dsimp only
  cases hstatus : (Reader.read code).status with
  | reading => exact absurd hstatus hended
  | complete => exact .inr ⟨rfl, rfl⟩
  | unclosed => exact .inl ⟨.unclosed, rfl, rfl⟩
  | strayCloser => exact .inl ⟨.strayCloser, rfl, rfl⟩

theorem Listing.count_eq_sum (groups : List Group) :
    count groups = (groups.map fun g => g.warnings.length).sum := by
  rw [count, List.sum_eq_foldr, List.foldr_map]

namespace Service

theorem lint_of_minTests {setting : Option Text} {usual : ℕ}
    (h : Threshold.ofEnvironment setting = .ok usual) (s : Text) (n : ℕ) :
    lint setting ⟨s, some n⟩ =
      match (assess s n).result with
      | .error f => faulty f
      | .ok groups => linted groups := by
  rw [lint, h]
  rfl

/-- A program that is sent to the service and the same program in a file, with `n` tests required
of both. If its brackets do not match, the service answers with the message that is printed about
the file. Otherwise it answers with the groups of the program and how many warnings are in them, and
they are printed with unified line ends in the warnings. -/
theorem lint_agrees_with_checkFile {s : Text} {setting : Option Text} {usual : ℕ}
    (hpictures : hasPictures s = false) (hsetting : Threshold.ofEnvironment setting = .ok usual)
    (n : ℕ) (path : Text) :
    let answer := lint setting ⟨s, some n⟩
    let check := checkFile n path (.ok (Utf8.encode s))
    let printed := (Session.Exchange.checked path check.1 check.2).printed true
    readSource (.ok (Utf8.encode s)) = .ok (unifyLineEnds s) ∧
      ((∃ f : SyntaxFault, (Reader.read s).status = f.status ∧
          f.message = "Syntax error in file: ".toList ++ (match f with
            | .unclosed => "unmatched parenthesis or bracket".toList
            | .strayCloser => "trailing characters".toList) ∧
          answer.status = 422 ∧
          answer.body = .json (.object [("detail".toList, .object
            [("error".toList, .string f.message),
              ("status".toList, .string f.status.label)])]) ∧
          printed = f.message ++ ['\n'] ∧ check.1.exitStatus.code = 2) ∨
        (Reader.read s).status = .complete ∧
          let groups := (Review.ofProgram (Reader.read s).forms n).groups
          answer.status = 200 ∧
          answer.body = .json (.object
            [("groups".toList, .array (groups.map fun g => .object
              [("title".toList, .string g.title),
                ("warnings".toList, .array (g.warnings.map .string))])),
              ("count".toList, .int ((groups.map fun g => g.warnings.length).sum : ℕ))]) ∧
          printed = Listing.json (groups.map fun g => ⟨g.title, g.warnings.map unifyLineEnds⟩) ++
            ['\n'] ∧
          check.1.exitStatus.code = if groups = [] then 0 else 1) := by
  intro answer check printed
  have hanswer : answer = _ := lint_of_minTests hsetting s n
  have hcheck : check.1 = _ := checkFile_encode hpictures n path
  have hprinted : printed = check.1.text true ++ ['\n'] := rfl
  refine ⟨readSource_encode s, ?_⟩
  rcases result_assess s n with ⟨f, hstatus, hresult⟩ | ⟨hstatus, hresult⟩
  · rw [hresult] at hanswer hcheck
    refine .inl ⟨f, hstatus, ?_, ?_⟩
    · cases f <;> rfl
    · rw [hprinted, hanswer, hcheck]
      exact ⟨rfl, rfl, rfl, rfl⟩
  · rw [hresult] at hanswer hcheck
    dsimp only at hanswer hcheck
    refine .inr ⟨hstatus, ?_⟩
    intro groups
    rw [hprinted, hanswer, hcheck, linted, Listing.count_eq_sum]
    refine ⟨rfl, rfl, rfl, ?_⟩
    change (CheckResult.reviewed (groups.map Group.unifyLineEnds)).exitStatus.code = _
    cases groups <;> rfl

/-- A stray test with a carriage return and a line feed in its string. -/
theorem lint_agrees_with_checkFile_of_test :
    let s := "(check-expect \"\r\n\" 1)".toList
    let check := checkFile 0 "a".toList (.ok (Utf8.encode s))
    hasPictures s = false ∧ Threshold.ofEnvironment none = .ok 2 ∧
      readSource (.ok (Utf8.encode s)) = .ok "(check-expect \"\n\" 1)".toList ∧
      ∃ groups : List Group, groups ≠ [] ∧ (lint none ⟨s, some 0⟩).status = 200 ∧
        (lint none ⟨s, some 0⟩).body = .json (.object
          [("groups".toList, .array (groups.map fun g => .object
            [("title".toList, .string g.title),
              ("warnings".toList, .array (g.warnings.map .string))])),
            ("count".toList, .int ((groups.map fun g => g.warnings.length).sum : ℕ))]) ∧
        (Session.Exchange.checked "a".toList check.1 check.2).printed true =
          Listing.json (groups.map fun g => ⟨g.title, g.warnings.map unifyLineEnds⟩) ++ ['\n'] ∧
        check.1.exitStatus.code = 1 := by
  have hpictures : hasPictures "(check-expect \"\r\n\" 1)".toList = false := by decide
  have hsetting : Threshold.ofEnvironment none = .ok 2 := rfl
  have hcomplete : (Reader.read "(check-expect \"\r\n\" 1)".toList).status = .complete := by cbv
  have hforms : (Reader.read "(check-expect \"\r\n\" 1)".toList).forms =
      [.list [.atom .identifier "check-expect".toList, .atom .string "\"\r\n\"".toList,
        .atom .number "1".toList]] := by cbv
  have hunified : unifyLineEnds "(check-expect \"\r\n\" 1)".toList =
      "(check-expect \"\n\" 1)".toList := by decide
  generalize "(check-expect \"\r\n\" 1)".toList = s at hpictures hcomplete hforms hunified ⊢
  generalize htest : Form.list [.atom .identifier "check-expect".toList,
    .atom .string "\"\r\n\"".toList, .atom .number "1".toList] = test at hforms
  have hunsigned : ∀ f ∈ [test], Signature.name? f = none := by simp [← htest, Signature.name?]
  have hstray : Review.strayWarnings Definition.inspect test = [.ofComplaint (.strayTest test)] := by
    rw [← htest]
    rfl
  have hgroups : (Review.ofProgram (Reader.read s).forms 0).groups ≠ [] := by
    rw [hforms, Review.groups, Review.sections_of_unsigned hunsigned, List.flatMap_singleton,
      hstray]
    exact List.cons_ne_nil _ _
  intro text check
  obtain ⟨hread, ⟨f, hfault, -⟩ | ⟨-, hstatus, hbody, hprinted, hcode⟩⟩ :=
    lint_agrees_with_checkFile hpictures hsetting 0 "a".toList
  · rw [hcomplete] at hfault
    cases f <;> cases hfault
  · rw [hunified] at hread
    exact ⟨hpictures, hsetting, hread, _, hgroups, hstatus, hbody, hprinted,
      hcode.trans (if_neg hgroups)⟩

end Service

end DesignRecipe
