import Mathlib.Tactic

/-!
# Results of an attempt

What the candidate loop of `run_request` reads and writes in an `ExtractArchiveResult`, and what a
candidate leads to if nothing interrupts its extraction and its probe.
-/

namespace Sunpack.PasswordLoop

inductive PasswordTestStatus
  | ok
  | wrongPassword
  | damaged
  | unsupported
  | backendUnavailable
  | error
  | needsVolumeOrTailDamaged
deriving DecidableEq, Repr

def kOpDataError : Int := 2

def kOpCrcError : Int := 3

def kOpWrongPassword : Int := 9

structure ExtractOutputItemTrace where
  encrypted : Bool
  isDir : Bool
  hasExpectedSize : Bool
  expectedSize : Nat
  operationResult : Int
deriving DecidableEq, Repr

structure ExtractArchiveResult where
  status : PasswordTestStatus := .backendUnavailable
  backendAvailable : Bool := false
  commandOk : Bool := false
  encrypted : Bool := false
  wrongPassword : Bool := false
  passwordRejected : Bool := false
  passwordCrcProven : Bool := false
  passwordCandidateBatch : Bool := false
  passwordCandidateDirect : Bool := false
  passwordCandidatesAllRejected : Bool := false
  operationResult : Int := 0
  itemCount : Nat := 0
  items : List ExtractOutputItemTrace := []
  passwordCandidateCount : Nat := 0
  passwordAttempts : Int := 0
  matchedIndex : Int := -1
  archiveType : String := ""
  failureStage : String := ""
  failureKind : String := ""
  message : String := ""
deriving DecidableEq, Repr

/-- `looks_wrong_password(S_OK, op_res, true)` -/
def looksWrongPassword (operationResult : Int) : Bool :=
  operationResult == kOpWrongPassword || operationResult == kOpDataError ||
    operationResult == kOpCrcError

/-- Whether all encrypted members were tested and rejected the password, and there was one. -/
def allItemsReject : Bool → List ExtractOutputItemTrace → Bool
  | tested, [] => tested
  | tested, item :: items =>
    if !item.encrypted || item.isDir || (item.hasExpectedSize && item.expectedSize == 0) then
      allItemsReject tested items
    else if !looksWrongPassword item.operationResult then false
    else allItemsReject true items

namespace ExtractArchiveResult

variable (r : ExtractArchiveResult)

def ok : Bool := r.status == .ok && r.commandOk

def extractionRejectsPassword : Bool :=
  r.itemCount != 0 && r.items.length == r.itemCount && allItemsReject false r.items

/-- A failure of which it is not clear whether it is the password; without the flags of the job. -/
def ambiguous : Bool :=
  !r.ok && r.encrypted && r.archiveType != "enc" && !r.passwordCrcProven && r.status != .error &&
    r.failureKind != "resource_unavailable" &&
    !(r.status == .wrongPassword && r.operationResult == kOpWrongPassword)

/-- The result once the password is known to be wrong. -/
def rejected : ExtractArchiveResult :=
  { r with
    status := .wrongPassword
    encrypted := true
    wrongPassword := true
    passwordRejected := true
    passwordCandidatesAllRejected := true
    failureStage := "password_probe"
    failureKind := "wrong_password"
    operationResult := kOpWrongPassword
    message := "wrong password" }

/-- What the loop adds to the result of the candidate with this index. -/
def direct (count index : Nat) : ExtractArchiveResult :=
  { r with
    passwordCandidateDirect := true
    passwordCandidateCount := count
    passwordAttempts := if count == 1 && r.ok then 0 else index + 1
    matchedIndex := if r.ok then index else -1
    passwordCandidatesAllRejected :=
      r.passwordCandidatesAllRejected || r.wrongPassword || r.passwordRejected }

end ExtractArchiveResult

/-- `password_candidate_failure` once every candidate is rejected. -/
def candidateFailure (count : Nat) : ExtractArchiveResult where
  status := .wrongPassword
  backendAvailable := true
  encrypted := true
  wrongPassword := true
  passwordRejected := true
  passwordCandidateBatch := true
  passwordCandidatesAllRejected := true
  operationResult := kOpWrongPassword
  passwordCandidateCount := count
  passwordAttempts := count
  failureStage := "password_probe"
  failureKind := "wrong_password"
  message := "wrong password"

/-- The result if the output of a rejected candidate cannot be removed. -/
def cleanupFailure (message : String) : ExtractArchiveResult where
  status := .error
  backendAvailable := true
  failureStage := "candidate_cleanup"
  failureKind := "output_filesystem"
  message := message

/-! ## Candidates -/

/-- What extraction and probe of every candidate give if nothing interrupts them. The extraction says
that a password is wrong with the status too, and leaves the verdict on all candidates to the loop. -/
structure Candidates where
  count : Nat
  extracted : Nat → ExtractArchiveResult
  probed : Nat → Bool
  undecided : ∀ k, (extracted k).passwordCandidatesAllRejected = false
  coherent : ∀ k, (extracted k).wrongPassword = true ∨ (extracted k).passwordRejected = true →
    (extracted k).status = .wrongPassword ∧ (extracted k).wrongPassword = true

namespace Candidates

variable (c : Candidates)

/-- The result of a candidate that nothing interrupts. -/
def judged (k : Nat) : ExtractArchiveResult :=
  (if (c.extracted k).ambiguous && ((c.extracted k).extractionRejectsPassword || c.probed k) then
    (c.extracted k).rejected
  else c.extracted k).direct c.count k

/-- An extraction or a probe that nothing interrupts rejects the candidate. -/
def rejects (k : Nat) : Bool := !(c.judged k).ok && (c.judged k).passwordCandidatesAllRejected

/-- What the job is to end with: success with the first candidate that is not rejected, the failure of
that candidate, or that all are wrong. -/
inductive Ends (r : ExtractArchiveResult) : Prop
  | success (k : Nat) (hk : k < c.count) (hbefore : ∀ i < k, c.rejects i = true)
      (hok : (c.extracted k).ok = true) (hr : r.ok = true) (hindex : r.matchedIndex = k)
  | failure (k : Nat) (hk : k < c.count) (hbefore : ∀ i < k, c.rejects i = true)
      (hnot : c.rejects k = false) (hok : (c.extracted k).ok = false) (hr : r = c.judged k)
  | wrong (hall : ∀ i < c.count, c.rejects i = true) (hstatus : r.status = .wrongPassword)
      (hwrong : r.wrongPassword = true) (hindex : r.matchedIndex = -1)

end Candidates

/-! ## Facts -/

section Facts

variable {r : ExtractArchiveResult} {c : Candidates} {k : Nat}

@[simp] theorem ok_direct (count index : Nat) : (r.direct count index).ok = r.ok := rfl

@[simp] theorem ok_rejected : r.rejected.ok = false := rfl

@[simp] theorem ok_candidateFailure (count : Nat) : (candidateFailure count).ok = false := rfl

@[simp] theorem ok_cleanupFailure (message : String) : (cleanupFailure message).ok = false := rfl

@[simp] theorem ok_default : ({} : ExtractArchiveResult).ok = false := rfl

theorem not_ok_of_ambiguous (h : r.ambiguous = true) : r.ok = false := by
  unfold ExtractArchiveResult.ambiguous at h
  simp only [Bool.and_eq_true, Bool.not_eq_true'] at h
  exact h.1.1.1.1.1.1

theorem ok_judged (c : Candidates) (k : Nat) : (c.judged k).ok = (c.extracted k).ok := by
  unfold Candidates.judged
  rw [ok_direct]
  split_ifs with hrejected
  · rw [Bool.and_eq_true] at hrejected
    rw [ok_rejected, not_ok_of_ambiguous hrejected.1]
  · rfl

/-- What the extraction alone rejects is rejected. -/
theorem rejects_of_extracted (hok : (c.extracted k).ok = false)
    (h : ((c.extracted k).direct c.count k).passwordCandidatesAllRejected = true) :
    c.rejects k = true := by
  unfold Candidates.rejects
  rw [ok_judged, hok, Bool.not_false, Bool.true_and]
  unfold Candidates.judged
  split_ifs
  · rfl
  · exact h

/-- A rejected candidate has a wrong password. -/
theorem wrong_of_rejects (h : c.rejects k = true) :
    (c.judged k).status = .wrongPassword ∧ (c.judged k).wrongPassword = true ∧
      (c.judged k).matchedIndex = -1 := by
  unfold Candidates.rejects at h
  rw [Bool.and_eq_true, Bool.not_eq_true', ok_judged] at h
  obtain ⟨hok, hall⟩ := h
  unfold Candidates.judged at hall ⊢
  split_ifs at hall ⊢ with hrejected
  · exact ⟨rfl, rfl, rfl⟩
  · have hflag : (c.extracted k).wrongPassword = true ∨ (c.extracted k).passwordRejected = true := by
      simpa [ExtractArchiveResult.direct, c.undecided k] using hall
    obtain ⟨hstatus, hwrong⟩ := c.coherent k hflag
    refine ⟨hstatus, hwrong, ?_⟩
    show (if (c.extracted k).ok then (k : Int) else -1) = -1
    rw [hok]
    rfl

/-- The first candidate that is not rejected decides. -/
theorem ends_judged (hk : k < c.count) (hbefore : ∀ i < k, c.rejects i = true)
    (hnot : c.rejects k = false) : c.Ends (c.judged k) := by
  cases hok : (c.extracted k).ok with
  | true =>
    have hjudged : (c.judged k).ok = true := by rw [ok_judged, hok]
    refine .success k hk hbefore hok hjudged ?_
    have hplain : c.judged k = (c.extracted k).direct c.count k := by
      unfold Candidates.judged
      split_ifs with hrejected
      · rw [Bool.and_eq_true] at hrejected
        rw [not_ok_of_ambiguous hrejected.1] at hok
        cases hok
      · rfl
    rw [hplain]
    show (if (c.extracted k).ok then (k : Int) else -1) = k
    rw [hok]
    rfl
  | false => exact .failure k hk hbefore hnot hok rfl

end Facts

end Sunpack.PasswordLoop
