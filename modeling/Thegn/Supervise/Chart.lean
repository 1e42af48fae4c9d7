import Thegn.Lib.Utf8

set_option autoImplicit false

/-! # The chart, validations and approvals

What the supervisor of a pipeline reads (`thegn-core/src/config_pipeline.rs`,
`pipeline_validate.rs`, `pipeline_approval.rs`): the stages and what they require, what a validation
run established, and whether an approval still holds for a commit.
-/

namespace Thegn.Supervise

open Text

/-! ## Requirements and stages -/

inductive Requirement
  | parentArtifact
  | parentReport
  | validationGreen
  | approval
  deriving DecidableEq

def Requirement.all : List Requirement :=
  [.parentArtifact, .parentReport, .validationGreen, .approval]

def Requirement.asStr : Requirement → Text
  | .parentArtifact => "parent_artifact".toList
  | .parentReport => "parent_report".toList
  | .validationGreen => "validation:green".toList
  | .approval => "approval".toList

def Requirement.parse (s : Text) : Option Requirement :=
  Requirement.all.find? fun r => r.asStr = trim s

/-- The fields of `[[pipeline.stages]]` that the supervisor reads. -/
structure PipelineStage where
  name : Text
  next : Option Text
  validate : List Text
  requires : List Text
  deriving DecidableEq

def PipelineStage.parsedRequires (s : PipelineStage) : List Requirement :=
  s.requires.filterMap Requirement.parse

def PipelineStage.validateTasks (s : PipelineStage) : List Text :=
  (s.validate.map trim).filter (· ≠ [])

def PipelineStage.nextName (s : PipelineStage) : Option Text := (s.next.map trim).filter (· ≠ [])

structure Pipeline where
  stages : List PipelineStage
  deriving DecidableEq

def Pipeline.stage (p : Pipeline) (name : Text) : Option PipelineStage :=
  p.stages.find? fun s => trim s.name = trim name

structure Supervisor where
  validateOnExit : Bool
  advance : Bool
  land : Bool
  approvalTtlSecs : UInt64
  landRequires : List Text
  deriving DecidableEq

def Supervisor.parsedLandRequires (s : Supervisor) : List Requirement :=
  s.landRequires.filterMap Requirement.parse

/-! ## Validation runs -/

inductive ValidationClass
  | green
  | compileError
  | testFailure
  | lintFinding
  | inconclusive
  | environmentError
  deriving DecidableEq

namespace ValidationClass

def asStr : ValidationClass → Text
  | .green => "green".toList
  | .compileError => "compile-error".toList
  | .testFailure => "test-failure".toList
  | .lintFinding => "lint-finding".toList
  | .inconclusive => "inconclusive".toList
  | .environmentError => "environment-error".toList

/-- The classes a stored text can name; any other text is inconclusive. -/
def parse (s : Text) : ValidationClass :=
  ([green, compileError, testFailure, lintFinding, environmentError].find? fun c =>
    c.asStr = trim s).getD .inconclusive

def isGreen : ValidationClass → Bool
  | .green => true
  | _ => false

def blamesCode : ValidationClass → Bool
  | .compileError | .testFailure | .lintFinding => true
  | _ => false

end ValidationClass

/-! ## Approvals -/

def minShaPrefix : Nat := 7

/-- The fields of an approval that decide whether it holds. -/
structure Approval where
  commitSha : Text
  grantedAtMs : Int
  expiresAtMs : Option Int
  revokedAtMs : Option Int
  deriving DecidableEq

inductive ApprovalState
  | live
  | absent
  | revoked (atMs : Int)
  | superseded (approved head : Text)
  | expired (deadlineMs : Int)
  | malformed (why : Text)
  deriving DecidableEq

def ApprovalState.isLive : ApprovalState → Bool
  | .live => true
  | _ => false

/-- A value within the signed 64-bit range. -/
def saturate (n : Int) : Int := max (-2 ^ 63) (min (2 ^ 63 - 1) n)

def deadlineMs (a : Approval) (ttlSecs : UInt64) : Option Int :=
  let fromTtl := if ttlSecs.toNat > 0 then
      some (saturate (a.grantedAtMs + saturate (min (ttlSecs.toNat : Int) (2 ^ 63 - 1) * 1000)))
    else none
  match a.expiresAtMs, fromTtl with
  | some x, some y => some (min x y)
  | some x, none => some x
  | none, y => y

/-- One is an abbreviation of the other. -/
def sameCommit (a b : Text) : Bool :=
  let (short, long) := if byteLen a ≤ byteLen b then (a, b) else (b, a)
  (long.zip short).all fun p => p.1.toLower == p.2.toLower

def approvedTooShort : Text := "the approved commit is empty or too short to identify a tree".toList

def headTooShort : Text := "the lane's head commit is empty or too short to identify a tree".toList

def stateFor (approval : Option Approval) (headSha : Text) (nowMs : Int) (ttlSecs : UInt64) :
    ApprovalState :=
  match approval with
  | none => .absent
  | some a =>
    match a.revokedAtMs with
    | some atMs => .revoked atMs
    | none =>
      if byteLen (trim a.commitSha) < minShaPrefix then .malformed approvedTooShort
      else if byteLen (trim headSha) < minShaPrefix then .malformed headTooShort
      else if sameCommit (trim a.commitSha) (trim headSha) = false then
        .superseded (trim a.commitSha) (trim headSha)
      else
        match deadlineMs a ttlSecs with
        | some deadline => if nowMs > deadline then .expired deadline else .live
        | none => .live

/-- Only an approval that holds is live. -/
theorem isLive_stateFor {approval : Option Approval} {head : Text} {now : Int} {ttl : UInt64}
    (h : (stateFor approval head now ttl).isLive = true) :
    ∃ a, approval = some a ∧ a.revokedAtMs = none ∧ minShaPrefix ≤ byteLen (trim a.commitSha) ∧
      minShaPrefix ≤ byteLen (trim head) ∧ sameCommit (trim a.commitSha) (trim head) = true ∧
      ∀ deadline, deadlineMs a ttl = some deadline → now ≤ deadline := by
  unfold stateFor at h
  split at h
  · cases h
  · rename_i a
    split at h
    · cases h
    · rename_i hrevoked
      split_ifs at h with happroved hhead hsame
      · cases h
      · cases h
      · cases h
      · refine ⟨a, rfl, hrevoked, Nat.not_lt.mp happroved, Nat.not_lt.mp hhead,
          Bool.not_eq_false _ ▸ hsame, ?_⟩
        intro deadline hdeadline
        rw [hdeadline] at h
        dsimp only at h
        split_ifs at h with hlate
        · cases h
        · exact Int.not_lt.mp hlate

end Thegn.Supervise
