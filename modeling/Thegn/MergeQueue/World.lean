import Thegn.MergeQueue.Row
import Thegn.Lib.Run

set_option autoImplicit false

/-! # Drivers of the merge queue

Any number of drivers and commands call the operations on one row in any order. The clock never goes
back, the registry may be any at each step, and no two admissions are given the same token. A
`World` is the database with the clock and two pieces of ghost state: the claims admitted on the
worktree's row, those before a deletion included, and the limit of its attempts.
-/

namespace Thegn.MergeQueue

open Text Run

structure World where
  db : MergeDb
  /-- Token and generation of each admission, the last one first. -/
  history : List (Text × Int)
  /-- The maximum given to the last attempt consumed, or the value set since. -/
  limit : Nat
  clock : Int
  /-- The tokens given out so far. -/
  used : List Text

/-- No row, at some time. -/
def World.init (clock : Int) : World :=
  { db := .empty, history := [], limit := 0, clock, used := [] }

inductive MergeOp
  | enqueue (branch targetBranch : Text)
  | enqueueCandidate (branch targetBranch : Text) (candidate : MergeCandidate)
  | enqueueCandidateWithIdentity (branch targetBranch : Text) (candidate : MergeCandidate)
      (identity : MergeEnqueueIdentity)
  | enqueueIfWorktreeMatches (branch repoRoot location targetBranch : Text)
  | admission (request : MergeClaimRequest) (token : Text)
  | admissionUnregistered (request : MergeClaimRequest) (token : Text)
  | renew (claim : MergeClaim) (leaseUntilMs : Int)
  | settle (claim : MergeClaim)
  | release (claim : MergeClaim)
  | consume (claim : MergeClaim) (max : UInt32)
  | refund (claim : MergeClaim)
  | replaceStatusClaimed (claim : MergeClaim) (status : Text) (fields : MergeStatusFields)
  | landStatusClaimed (claim : MergeClaim) (fields : MergeStatusFields) (targetBaseOid : Text)
  | remove
  | removeAs (actor : Text)
  | delWorktree
  | reapExpiredLanded
  | replaceStatus (status : Text) (fields : MergeStatusFields)
  | updateStatus (status : Text) (resultOid conflictPaths errorDetail : Option Text)
  | setTarget (targetBranch : Text)
  | setAgentAttempts (attempts : UInt32)
  | retry
  | retryHeld
  | recordRefusal (operation outcome : Text)
  | adoptCandidate (expected : MergeCandidate) (candidateOid : Text)
  | backfillResult (expected : MergeQueueRow) (resultOid : Text)
  | holdCleanup (seen : MergeQueueRow)
  | deferCleanup (seen : MergeQueueRow) (retry : CleanupRetry)
  | persistOutcome (observed : MergeOutcomeObservation) (outcome : MergeFinalOutcome)

/-- The database after the operation. -/
def MergeOp.apply (op : MergeOp) (db : MergeDb) (env : Env) : MergeDb :=
  match op with
  | .enqueue branch target => (enqueueMerge db env branch target).1
  | .enqueueCandidate branch target candidate =>
    (enqueueMergeCandidate db env branch target candidate).1
  | .enqueueCandidateWithIdentity branch target candidate identity =>
    (enqueueMergeCandidateWithIdentity db env branch target candidate identity).1
  | .enqueueIfWorktreeMatches branch repoRoot location target =>
    (enqueueMergeIfWorktreeMatches db env branch repoRoot location target).1
  | .admission request token => (admitMergeClaim db env request token).1
  | .admissionUnregistered request token =>
    (admitUnregisteredLocalMergeClaim db env request token).1
  | .renew claim stop => (renewMergeClaim db env claim stop).1
  | .settle claim => (settleMergeClaimNoChild db env claim).1
  | .release claim => (releaseMergeClaim db claim).1
  | .consume claim max => (consumeMergeAgentAttempt db env claim max).1
  | .refund claim => (refundMergeAgentAttempt db env claim).1
  | .replaceStatusClaimed claim status fields =>
    (replaceMergeStatusClaimed db env claim status fields).1
  | .landStatusClaimed claim fields base => (landMergeStatusClaimed db env claim fields base).1
  | .remove => (removeMergeEntry db env).1
  | .removeAs actor => (removeMergeEntryAs db env actor).1
  | .delWorktree => MergeQueue.delWorktree db env
  | .reapExpiredLanded => { db with row := (reapExpiredLandedClaim db.row env.nowMs).1 }
  | .replaceStatus status fields => (replaceMergeStatus db env status fields).1
  | .updateStatus status result conflicts detail =>
    (updateMergeStatus db env status result conflicts detail).1
  | .setTarget target => (setMergeTarget db env target).1
  | .setAgentAttempts attempts => (setMergeAgentAttempts db env attempts).1
  | .retry => (retryMergeEntry db env).1
  | .retryHeld => (retryHeldMergeEntry db env).1
  | .recordRefusal operation outcome => (recordMergeRefusal db env operation outcome).1
  | .adoptCandidate expected oid => (adoptMergeCandidate db env expected oid).1
  | .backfillResult expected oid => (backfillLandedResultOid db expected oid).1
  | .holdCleanup seen => (holdMergeCleanup db seen).1
  | .deferCleanup seen next => (deferMergeCleanup db seen next).1
  | .persistOutcome observed outcome => (persistMergeOutcome db env observed outcome).1

/-- The claim an operation is called with. -/
def MergeOp.claim : MergeOp → Option MergeClaim
  | .renew claim _ => some claim
  | .settle claim => some claim
  | .release claim => some claim
  | .consume claim _ => some claim
  | .refund claim => some claim
  | .replaceStatusClaimed claim _ _ => some claim
  | .landStatusClaimed claim _ _ => some claim
  | _ => none

/-- The token an operation may give out. -/
def MergeOp.token : MergeOp → Option Text
  | .admission _ token => some token
  | .admissionUnregistered _ token => some token
  | _ => none

/-- The operation reports success to the driver that called it with a claim. -/
def MergeOp.succeeds (op : MergeOp) (db : MergeDb) (env : Env) : Bool :=
  match op with
  | .renew claim stop => (renewMergeClaim db env claim stop).2.toBool
  | .settle claim => (settleMergeClaimNoChild db env claim).2.toBool
  | .release claim => (releaseMergeClaim db claim).2.toBool
  | .consume claim max => (consumeMergeAgentAttempt db env claim max).2 == .consumed
  | .refund claim => (refundMergeAgentAttempt db env claim).2
  | .replaceStatusClaimed claim status fields =>
    (replaceMergeStatusClaimed db env claim status fields).2.toBool
  | .landStatusClaimed claim fields base =>
    (landMergeStatusClaimed db env claim fields base).2.toBool
  | _ => false

/-- The claim an operation admits. -/
def MergeOp.admitted (op : MergeOp) (db : MergeDb) (env : Env) : Option MergeClaim :=
  match op with
  | .admission request token => (admitMergeClaim db env request token).2.toOption.join
  | .admissionUnregistered request token =>
    (admitUnregisteredLocalMergeClaim db env request token).2.toOption.join
  | _ => none

/-- The operation releases a claim that a drain left on a landed row, before it does its work. -/
def MergeOp.reaps : MergeOp → Bool
  | .enqueue .. | .enqueueCandidate .. | .enqueueCandidateWithIdentity ..
  | .enqueueIfWorktreeMatches .. | .remove | .removeAs .. | .delWorktree => true
  | _ => false

/-- The limit after the operation. -/
def MergeOp.limit (op : MergeOp) (db : MergeDb) (env : Env) (old : Nat) : Nat :=
  match op with
  | .consume claim max =>
    if (consumeMergeAgentAttempt db env claim max).2 = .consumed then max.toNat else old
  | .setAgentAttempts attempts =>
    if db.row.any fun row => row.claimOwner.isNone then attempts.toNat else old
  | _ => old

/-- One operation. It is possible if the clock does not go back and its token is new. -/
def mergeStep (w : World) (m : MergeOp × Env) : Option World :=
  if w.clock ≤ m.2.nowMs ∧ ∀ token ∈ m.1.token, token ∉ w.used then
    some
      { db := m.1.apply w.db m.2
        history := ((m.1.admitted w.db m.2).map fun claim =>
          (claim.ownerToken, claim.generation)).toList ++ w.history
        limit := m.1.limit w.db m.2 w.limit
        clock := m.2.nowMs
        used := m.1.token.toList ++ w.used }
  else none

end Thegn.MergeQueue
