import Thegn.PrQueue.Row

set_option autoImplicit false

/-! # A row of the merge queue

The statements of `thegn-core/src/db_aux.rs` on the `merge_queue` row of one worktree, and the ones
`del_worktree` runs on it. Every statement names the worktree, so the row of another one is never
touched and a database is here the row, if there is one, with its events. An operation is one
transaction: it takes the database and its environment (the clock, the registry of worktrees and the
name of the acting process) and returns the database with its result.

Statuses are text, as in the table. The claim phase is one of the three values that are ever
written.
-/

namespace Thegn.MergeQueue

open Text
open PrQueue (saturatingSub)

/-! ## Statuses -/

inductive MqStatus
  | queued
  | folding
  | verifying
  | landed
  | ready
  | deferred
  | gateFailed
  | gateError
  | agentBlocked
  | agentRunning
  | needsHuman
  deriving DecidableEq, Repr

def MqStatus.all : List MqStatus :=
  [.queued, .folding, .verifying, .landed, .ready, .deferred, .gateFailed, .gateError,
    .agentRunning, .needsHuman, .agentBlocked]

def MqStatus.asStr : MqStatus → Text
  | .queued => "queued".toList
  | .folding => "folding".toList
  | .verifying => "verifying".toList
  | .landed => "landed".toList
  | .ready => "ready".toList
  | .deferred => "deferred".toList
  | .gateFailed => "gate_failed".toList
  | .gateError => "gate_error".toList
  | .agentBlocked => "agent_blocked".toList
  | .agentRunning => "agent_running".toList
  | .needsHuman => "needs_human".toList

def MqStatus.parse (s : Text) : Option MqStatus := MqStatus.all.find? fun st => st.asStr = s

def MqStatus.isHeld : MqStatus → Bool
  | .deferred | .gateFailed | .gateError | .agentBlocked | .needsHuman => true
  | _ => false

/-- The text of a status that is not finished. -/
def activeStatus (status : Text) : Bool :=
  decide (status ∈ ["queued".toList, "folding".toList, "verifying".toList, "agent_running".toList])

/-! ## Rows and claims -/

inductive ClaimPhase
  | unclaimed
  | claimedNoChild
  | settled
  deriving DecidableEq, Repr

/-- The columns of a `merge_queue` row besides its key. -/
structure MergeRow where
  branch : Text
  targetBranch : Text
  status : Text
  queuedAt : Int
  updatedAt : Int
  resultOid : Option Text
  conflictPaths : Option Text
  errorDetail : Option Text
  location : Option Text
  agentAttempts : Int
  claimOwner : Option Text
  claimGeneration : Int
  claimPhase : ClaimPhase
  claimLeaseUntilMs : Option Int
  claimOwnerHint : Option Text
  claimLaunchNonce : Option Text
  claimDiagnostic : Option Text
  branchRef : Option Text
  candidateOid : Option Text
  enqueueCommonDir : Option Text
  enqueueAdminDir : Option Text
  landedSourceOid : Option Text
  landedTargetBaseOid : Option Text

structure MergeQueueEvent where
  operation : Text
  outcome : Text
  oldStatus : Text
  newStatus : Option Text
  rowUpdatedAt : Int
  candidateOid : Option Text
  resultOid : Option Text
  targetBaseOid : Option Text
  actor : Text
  atMs : Int

structure MergeDb where
  row : Option MergeRow
  /-- The newest first. -/
  events : List MergeQueueEvent

def MergeDb.empty : MergeDb := { row := none, events := [] }

/-- What the registry has of the worktree. -/
structure MergeRegistryIdentity where
  branch : Option Text
  repoPath : Option Text
  location : Option Text
  deriving DecidableEq

/-- The environment of one transaction. -/
structure Env where
  nowMs : Int
  registry : Option MergeRegistryIdentity
  actor : Text

/-- `util::now`, in seconds. -/
def Env.now (env : Env) : Int := env.nowMs / 1000

structure MergeClaim where
  branch : Text
  repoRoot : Text
  targetBranch : Text
  location : Text
  generation : Int
  phase : ClaimPhase
  leaseUntilMs : Int
  ownerHint : Option Text
  ownerToken : Text

/-- The row is held under this claim. -/
def MergeRow.heldBy (row : MergeRow) (claim : MergeClaim) : Bool :=
  row.claimOwner == some claim.ownerToken && row.claimGeneration == claim.generation

/-- The claim is one without a child, and its lease has not run out. -/
def MergeRow.claimLive (row : MergeRow) (nowMs : Int) : Bool :=
  row.claimPhase == .claimedNoChild && row.claimLeaseUntilMs.any fun stop => nowMs ≤ stop

/-- The row without its claim; the generation stays. -/
def MergeRow.unclaim (row : MergeRow) : MergeRow :=
  { row with
    claimOwner := none, claimPhase := .unclaimed, claimLeaseUntilMs := none
    claimOwnerHint := none, claimLaunchNonce := none, claimDiagnostic := none }

/-- `UPDATE merge_queue SET … WHERE worktree = … AND cond`, with the number of rows changed. -/
def updateRow (row : Option MergeRow) (cond : MergeRow → Bool) (f : MergeRow → MergeRow) :
    Option MergeRow × Nat :=
  match row with
  | some r => if cond r then (some (f r), 1) else (some r, 0)
  | none => (none, 0)

/-- `INSERT … ON CONFLICT(worktree) DO UPDATE SET … WHERE claim_owner IS NULL`. -/
def upsertRow (row : Option MergeRow) (new : MergeRow) (f : MergeRow → MergeRow) :
    Option MergeRow × Nat :=
  match row with
  | some r => if r.claimOwner.isNone then (some (f r), 1) else (some r, 0)
  | none => (some new, 1)

def mergeLocation (location : Option Text) : Text :=
  match location with
  | none => []
  | some l => if l = [] ∨ l = "local".toList then [] else l

def claimLost : Text := "merge claim lost".toList

def claimActive : Text := "merge row is claimed by an active drain".toList

/-- `MERGE_CLAIM_MAX_LEASE_MS`. -/
def claimMaxLeaseMs : Int := 5 * 60 * 1000

/-- `MERGE_CLAIM_OWNER_HINT_MAX`. -/
def claimOwnerHintMax : Nat := 64

/-- `read_claim`. A row without a claim has no claim to read: its phase is none of a claim. -/
def readClaim (row : Option MergeRow) (env : Env) (repoRoot : Text) :
    Except Text (Option MergeClaim) :=
  match row with
  | none => .ok none
  | some r =>
    match r.claimPhase, r.claimLeaseUntilMs, r.claimOwner with
    | .unclaimed, _, _ => .error "invalid column type claim_phase".toList
    | _, none, _ => .error "invalid column type claim_lease_until_ms".toList
    | _, _, none => .error "invalid column type claim_owner".toList
    | phase, some leaseUntilMs, some ownerToken =>
      .ok (some
        { branch := r.branch
          repoRoot := (env.registry.bind (·.repoPath)).getD repoRoot
          targetBranch := r.targetBranch
          location := r.location.getD []
          generation := r.claimGeneration
          phase, leaseUntilMs
          ownerHint := r.claimOwnerHint
          ownerToken })

/-- `ensure_unclaimed`. -/
def ensureUnclaimed (row : Option MergeRow) : Except Text Unit :=
  if (row.bind (·.claimOwner)).isSome then .error claimActive else .ok ()

/-- `MERGE_QUEUE_EVENTS_PER_WORKTREE`. -/
def eventsPerWorktree : Nat := 200

def recordMergeEvent (events : List MergeQueueEvent) (event : MergeQueueEvent) :
    List MergeQueueEvent :=
  (event :: events).take eventsPerWorktree

/-- `reap_expired_landed_claim`: release the claim that an expired drain left on a landed row. -/
def reapExpiredLandedClaim (row : Option MergeRow) (nowMs : Int) : Option MergeRow × Nat :=
  updateRow row
    (fun r => decide (r.status = "landed".toList) && r.claimOwner.isSome
      && r.claimLeaseUntilMs.any fun stop => stop < nowMs)
    MergeRow.unclaim

/-! ## Admission -/

structure MergeClaimRequest where
  worktree : Text
  branch : Text
  repoRoot : Text
  targetBranch : Text
  location : Text
  expectedStatus : Text
  leaseUntilMs : Int
  ownerHint : Option Text

def validClaimText (value : Text) (max : Nat) : Bool :=
  !value.isEmpty && decide (byteLen value ≤ max) && !value.any isControl

/-- The statuses a request may expect. -/
def claimableStatus : List Text :=
  ["queued".toList, "deferred".toList, "gate_failed".toList, "gate_error".toList,
    "needs_human".toList, "ready".toList, "agent_blocked".toList]

def validateClaimRequest (request : MergeClaimRequest) : Except Text Unit :=
  if !([request.worktree, request.branch, request.repoRoot, request.targetBranch].all
      fun value => validClaimText value 4096) then
    .error "invalid merge claim identity".toList
  else if byteLen request.location > 4096 ∨ request.location.any isControl then
    .error "invalid merge claim location".toList
  else if request.expectedStatus ∉ claimableStatus then
    .error "invalid merge claim status".toList
  else if request.ownerHint.any fun hint => !validClaimText hint claimOwnerHintMax then
    .error "invalid merge claim owner hint".toList
  else .ok ()

inductive ClaimIdentity
  | registered
  | unregisteredLocal
  deriving DecidableEq

/-- The registry still says what the request says. -/
def identityMatches (env : Env) (request : MergeClaimRequest) : ClaimIdentity → Bool
  | .registered =>
    env.registry.any fun reg => reg.branch == some request.branch
      && reg.repoPath.getD [] == request.repoRoot
      && mergeLocation reg.location == mergeLocation (some request.location)
  | .unregisteredLocal => env.registry.isNone

/-- The `WHERE` of an admission: an unclaimed row with the expected status, or an expired claim. -/
def MergeRow.admissible (row : MergeRow) (request : MergeClaimRequest) (nowMs : Int) : Bool :=
  row.branch == request.branch && row.targetBranch == request.targetBranch
    && ((row.claimPhase == .unclaimed && row.status == request.expectedStatus)
      || ((row.claimPhase == .claimedNoChild || row.claimPhase == .settled)
        && row.claimLeaseUntilMs.any fun stop => stop < nowMs))
    && mergeLocation row.location == mergeLocation (some request.location)
    && decide (row.claimGeneration < 2 ^ 63 - 1)

def MergeRow.claim (row : MergeRow) (request : MergeClaimRequest) (token : Text) : MergeRow :=
  { row with
    claimOwner := some token, claimGeneration := row.claimGeneration + 1
    claimPhase := .claimedNoChild, claimLeaseUntilMs := some request.leaseUntilMs
    claimOwnerHint := request.ownerHint, claimDiagnostic := none, claimLaunchNonce := none }

def validLease (leaseUntilMs nowMs : Int) : Bool :=
  decide (nowMs < leaseUntilMs) && decide (saturatingSub leaseUntilMs nowMs ≤ claimMaxLeaseMs)

/-- `admit_merge_claim_tx`. An error drops the transaction. -/
def admitMergeClaimTx (db : MergeDb) (env : Env) (request : MergeClaimRequest) (token : Text)
    (identity : ClaimIdentity) : MergeDb × Except Text (Option MergeClaim) :=
  if validLease request.leaseUntilMs env.nowMs = false then (db, .ok none)
  else if identityMatches env request identity = false then (db, .ok none)
  else
    let r := updateRow db.row (fun row => row.admissible request env.nowMs)
      fun row => row.claim request token
    if r.2 = 1 then
      match readClaim r.1 env request.repoRoot with
      | .ok claim => ({ db with row := r.1 }, .ok claim)
      | .error e => (db, .error e)
    else ({ db with row := r.1 }, .ok none)

def admitMergeClaim (db : MergeDb) (env : Env) (request : MergeClaimRequest) (token : Text) :
    MergeDb × Except Text (Option MergeClaim) :=
  match validateClaimRequest request with
  | .error e => (db, .error e)
  | .ok () => admitMergeClaimTx db env request token .registered

def admitUnregisteredLocalMergeClaim (db : MergeDb) (env : Env) (request : MergeClaimRequest)
    (token : Text) : MergeDb × Except Text (Option MergeClaim) :=
  match validateClaimRequest request with
  | .error e => (db, .error e)
  | .ok () =>
    if mergeLocation (some request.location) ≠ [] then
      (db, .error "unregistered merge claim requires a local row".toList)
    else admitMergeClaimTx db env request token .unregisteredLocal

/-! ## Writes under a claim -/

/-- Write to the row held under the claim and read the claim back; nothing is written if it is
lost. -/
def writeHeld (db : MergeDb) (env : Env) (claim : MergeClaim) (cond : MergeRow → Bool)
    (f : MergeRow → MergeRow) : MergeDb × Except Text MergeClaim :=
  let r := updateRow db.row (fun row => row.heldBy claim && cond row) f
  if r.2 ≠ 1 then (db, .error claimLost)
  else
    match readClaim r.1 env claim.repoRoot with
    | .ok (some updated) => ({ db with row := r.1 }, .ok updated)
    | .ok none => (db, .error claimLost)
    | .error e => (db, .error e)

def renewMergeClaim (db : MergeDb) (env : Env) (claim : MergeClaim) (leaseUntilMs : Int) :
    MergeDb × Except Text MergeClaim :=
  if validLease leaseUntilMs env.nowMs = false then
    (db, .error "invalid merge claim lease".toList)
  else
    writeHeld db env claim (fun row => row.claimLive env.nowMs)
      fun row => { row with claimLeaseUntilMs := some leaseUntilMs }

def settleMergeClaimNoChild (db : MergeDb) (env : Env) (claim : MergeClaim) :
    MergeDb × Except Text MergeClaim :=
  writeHeld db env claim (fun row => row.claimPhase == .claimedNoChild)
    fun row => { row with claimPhase := .settled }

def releaseMergeClaim (db : MergeDb) (claim : MergeClaim) : MergeDb × Except Text Unit :=
  let r := updateRow db.row (fun row => row.heldBy claim && row.claimPhase == .settled)
    MergeRow.unclaim
  if r.2 ≠ 1 then (db, .error claimLost) else ({ db with row := r.1 }, .ok ())

inductive MergeAttemptResult
  | consumed
  | budgetExhausted
  | claimLost
  deriving DecidableEq

def consumeMergeAgentAttempt (db : MergeDb) (env : Env) (claim : MergeClaim) (max : UInt32) :
    MergeDb × MergeAttemptResult :=
  let r := updateRow db.row
    (fun row => row.heldBy claim && row.claimLive env.nowMs
      && decide (row.agentAttempts < max.toNat))
    fun row => { row with agentAttempts := row.agentAttempts + 1, updatedAt := env.now }
  ({ db with row := r.1 },
    if r.2 = 1 then .consumed
    else if db.row.any fun row => row.heldBy claim && row.claimLive env.nowMs
        && decide ((max.toNat : Int) ≤ row.agentAttempts) then .budgetExhausted
    else .claimLost)

def refundMergeAgentAttempt (db : MergeDb) (env : Env) (claim : MergeClaim) : MergeDb × Bool :=
  let r := updateRow db.row
    (fun row => row.heldBy claim && row.claimLive env.nowMs && decide (0 < row.agentAttempts))
    fun row => { row with agentAttempts := row.agentAttempts - 1, updatedAt := env.now }
  ({ db with row := r.1 }, r.2 == 1)

structure MergeStatusFields where
  resultOid : Option Text
  conflictPaths : Option Text
  errorDetail : Option Text

/-- `ensure_known_merge_status`. -/
def ensureKnownMergeStatus (status : Text) : Except Text Unit :=
  if MqStatus.parse status = none then
    .error ("unknown merge-queue status \"".toList ++ status
      ++ "\": not in the canonical MqStatus vocabulary".toList)
  else .ok ()

def nonempty (oid : Option Text) : Bool := oid.any fun t => !t.isEmpty

def landedNeedsResult : Text := "landed merge status requires a nonempty result OID".toList

/-- The event of a transition that a drain wrote. -/
def driveEvent (env : Env) (prior : MergeRow) (status : Text)
    (resultOid targetBaseOid : Option Text) : MergeQueueEvent :=
  { operation := "drive".toList, outcome := "transition".toList, oldStatus := prior.status
    newStatus := some status, rowUpdatedAt := prior.updatedAt, candidateOid := prior.candidateOid
    resultOid, targetBaseOid, actor := env.actor, atMs := env.nowMs }

/-- Record the transition, if the status is another one. -/
def recordDrive (env : Env) (prior : Option MergeRow) (status : Text)
    (resultOid targetBaseOid : Option Text) (written : MergeDb × Except Text MergeClaim) :
    MergeDb × Except Text MergeClaim :=
  match written.2, prior with
  | .ok updated, some old =>
    if old.status ≠ status then
      ({ written.1 with
          events := recordMergeEvent written.1.events
            (driveEvent env old status resultOid targetBaseOid) }, .ok updated)
    else written
  | _, _ => written

/-- `write_merge_status_claimed`. -/
def writeMergeStatusClaimed (db : MergeDb) (env : Env) (claim : MergeClaim) (status : Text)
    (fields : MergeStatusFields) (targetBaseOid : Option Text) : MergeDb × Except Text MergeClaim :=
  match ensureKnownMergeStatus status with
  | .error e => (db, .error e)
  | .ok () =>
    if status = "landed".toList ∧ nonempty fields.resultOid = false then
      (db, .error landedNeedsResult)
    else
      let prior := db.row.filter fun row => row.heldBy claim
      let landed := decide (status = "landed".toList) && targetBaseOid.isSome
      recordDrive env prior status fields.resultOid targetBaseOid
        (writeHeld db env claim (fun row => row.claimPhase == .settled || row.claimLive env.nowMs)
          fun row => { row with
            status, updatedAt := env.now, resultOid := fields.resultOid
            conflictPaths := fields.conflictPaths, errorDetail := fields.errorDetail
            landedSourceOid := if landed then prior.bind (·.candidateOid) else none
            landedTargetBaseOid := if landed then targetBaseOid else none })

def replaceMergeStatusClaimed (db : MergeDb) (env : Env) (claim : MergeClaim) (status : Text)
    (fields : MergeStatusFields) : MergeDb × Except Text MergeClaim :=
  writeMergeStatusClaimed db env claim status fields none

def landMergeStatusClaimed (db : MergeDb) (env : Env) (claim : MergeClaim)
    (fields : MergeStatusFields) (targetBaseOid : Text) : MergeDb × Except Text MergeClaim :=
  if trim targetBaseOid = [] then
    (db, .error "landed target base OID must not be empty".toList)
  else writeMergeStatusClaimed db env claim "landed".toList fields (some targetBaseOid)

/-! ## Enqueueing and removal -/

structure MergeCandidate where
  branchRef : Text
  candidateOid : Text

structure MergeEnqueueIdentity where
  commonDir : Text
  adminDir : Text

/-- A row as it is inserted. -/
def newRow (branch targetBranch status : Text) (now : Int) (location : Option Text) : MergeRow :=
  { branch, targetBranch, status, queuedAt := now, updatedAt := now
    resultOid := none, conflictPaths := none, errorDetail := none, location, agentAttempts := 0
    claimOwner := none, claimGeneration := 0, claimPhase := .unclaimed, claimLeaseUntilMs := none
    claimOwnerHint := none, claimLaunchNonce := none, claimDiagnostic := none
    branchRef := none, candidateOid := none, enqueueCommonDir := none, enqueueAdminDir := none
    landedSourceOid := none, landedTargetBaseOid := none }

/-- The upsert of an enqueue, on the row without an expired landed claim. -/
def upsertQueued (row : Option MergeRow) (env : Env) (branch targetBranch : Text)
    (location : Option Text) (candidate : Option MergeCandidate)
    (identity : Option MergeEnqueueIdentity) : Option MergeRow × Nat :=
  let fill := fun r : MergeRow => { r with
    branch, targetBranch, status := "queued".toList, queuedAt := env.now, updatedAt := env.now
    resultOid := none, conflictPaths := none, errorDetail := none, landedSourceOid := none
    landedTargetBaseOid := none, location
    branchRef := candidate.map (·.branchRef), candidateOid := candidate.map (·.candidateOid)
    enqueueCommonDir := identity.map (·.commonDir), enqueueAdminDir := identity.map (·.adminDir) }
  upsertRow (reapExpiredLandedClaim row env.nowMs).1
    (fill (newRow branch targetBranch "queued".toList env.now location))
    fun r => { fill r with agentAttempts := if activeStatus r.status then r.agentAttempts else 0 }

def enqueueMergeRow (db : MergeDb) (env : Env) (branch targetBranch : Text)
    (candidate : Option MergeCandidate) (identity : Option MergeEnqueueIdentity) :
    MergeDb × Except Text Unit :=
  let r := upsertQueued db.row env branch targetBranch (env.registry.bind (·.location)) candidate
    identity
  ({ db with row := r.1 }, if r.2 ≠ 1 then .error claimActive else .ok ())

def enqueueMerge (db : MergeDb) (env : Env) (branch targetBranch : Text) :
    MergeDb × Except Text Unit :=
  enqueueMergeRow db env branch targetBranch none none

def validateMergeCandidate (branch : Text) (candidate : MergeCandidate) : Except Text Unit :=
  if candidate.branchRef ≠ "refs/heads/".toList ++ branch then
    .error "invalid merge candidate branch_ref".toList
  else if ¬ ((byteLen candidate.candidateOid = 40 ∨ byteLen candidate.candidateOid = 64)
      ∧ candidate.candidateOid.all fun c => c.isDigit ||
        (decide ('a' ≤ c) && decide (c ≤ 'f'))) then
    .error "invalid merge candidate candidate_oid".toList
  else .ok ()

def enqueueMergeCandidate (db : MergeDb) (env : Env) (branch targetBranch : Text)
    (candidate : MergeCandidate) : MergeDb × Except Text Unit :=
  match validateMergeCandidate branch candidate with
  | .error e => (db, .error e)
  | .ok () => enqueueMergeRow db env branch targetBranch (some candidate) none

def enqueueMergeCandidateWithIdentity (db : MergeDb) (env : Env) (branch targetBranch : Text)
    (candidate : MergeCandidate) (identity : MergeEnqueueIdentity) : MergeDb × Except Text Unit :=
  match validateMergeCandidate branch candidate with
  | .error e => (db, .error e)
  | .ok () =>
    if !(validClaimText identity.commonDir 4096 && validClaimText identity.adminDir 4096) then
      (db, .error "invalid merge enqueue identity".toList)
    else enqueueMergeRow db env branch targetBranch (some candidate) (some identity)

/-- `enqueue_merge_if_worktree_matches`; all but success rolls back. -/
def enqueueMergeIfWorktreeMatches (db : MergeDb) (env : Env)
    (branch repoRoot location targetBranch : Text) : MergeDb × Except Text Bool :=
  if !(env.registry.any fun reg => reg.branch.getD [] == branch && reg.repoPath.getD [] == repoRoot
      && reg.location.getD [] == location) then (db, .ok false)
  else
    let r := upsertQueued db.row env branch targetBranch (some location) none none
    if r.2 ≠ 1 then (db, .error claimActive) else ({ db with row := r.1 }, .ok true)

/-- The event of an operation on the row as it stands. -/
def rowEvent (env : Env) (row : MergeRow) (operation outcome : Text) (newStatus : Option Text)
    (actor : Text) : MergeQueueEvent :=
  { operation, outcome, oldStatus := row.status, newStatus, rowUpdatedAt := row.updatedAt
    candidateOid := row.candidateOid, resultOid := row.resultOid, targetBaseOid := none
    actor, atMs := env.nowMs }

/-- `remove_merge_entry_as`. A claimed row stays, with an event. -/
def removeMergeEntryAs (db : MergeDb) (env : Env) (actor : Text) : MergeDb × Except Text Unit :=
  match (reapExpiredLandedClaim db.row env.nowMs).1 with
  | none => (db, .ok ())
  | some row =>
    if row.claimOwner.isSome then
      ({ row := some row
         events := recordMergeEvent db.events
          (rowEvent env row "remove".toList "claimed".toList none actor) }, .error claimActive)
    else
      ({ row := none
         events := recordMergeEvent db.events
          (rowEvent env row "remove".toList "deleted".toList none actor) }, .ok ())

def removeMergeEntry (db : MergeDb) (env : Env) : MergeDb × Except Text Unit :=
  removeMergeEntryAs db env env.actor

/-- `CleanupHold::BranchRetained.marker`. -/
def branchRetained : Text := "thegn-cleanup-hold:v1:branch-retained".toList

/-- What `del_worktree` does to the queue. -/
def delWorktree (db : MergeDb) (env : Env) : MergeDb :=
  match (reapExpiredLandedClaim db.row env.nowMs).1 with
  | none => { row := none, events := [] }
  | some row =>
    if row.claimOwner.isNone
        ∧ ¬ (row.status = "landed".toList ∧ row.errorDetail = some branchRetained) then
      { row := none, events := [] }
    else { db with row := some row }

/-! ## Writes to an unclaimed row -/

/-- Write to a row that has no owner. -/
def writeUnclaimed (db : MergeDb) (f : MergeRow → MergeRow) : MergeDb × Nat :=
  let r := updateRow db.row (fun row => row.claimOwner.isNone) f
  ({ db with row := r.1 }, r.2)

/-- `ensure_unclaimed` when nothing was changed. -/
def unclaimedResult (db : MergeDb) (changed : Nat) : Except Text Unit :=
  if changed = 0 then ensureUnclaimed db.row else .ok ()

def replaceMergeStatus (db : MergeDb) (env : Env) (status : Text) (fields : MergeStatusFields) :
    MergeDb × Except Text Unit :=
  match ensureKnownMergeStatus status with
  | .error e => (db, .error e)
  | .ok () =>
    if status = "landed".toList ∧ nonempty fields.resultOid = false then
      (db, .error landedNeedsResult)
    else
      let r := writeUnclaimed db fun row => { row with
        status, updatedAt := env.now, resultOid := fields.resultOid
        conflictPaths := fields.conflictPaths, errorDetail := fields.errorDetail
        landedSourceOid := none, landedTargetBaseOid := none }
      match unclaimedResult db r.2 with
      | .error e => (db, .error e)
      | .ok () =>
        if r.2 ≠ 1 then
          (db, .error "merge status replacement requires one existing row".toList)
        else (r.1, .ok ())

def updateMergeStatus (db : MergeDb) (env : Env) (status : Text)
    (resultOid conflictPaths errorDetail : Option Text) : MergeDb × Except Text Unit :=
  match ensureKnownMergeStatus status with
  | .error e => (db, .error e)
  | .ok () =>
    if status = "landed".toList ∧ (resultOid = some []
        ∨ nonempty (resultOid.or (db.row.bind (·.resultOid))) = false) then
      (db, .error landedNeedsResult)
    else
      let landed := decide (status = "landed".toList)
      let r := writeUnclaimed db fun row => { row with
        status, updatedAt := env.now, resultOid := resultOid.or row.resultOid
        landedSourceOid := if landed then row.landedSourceOid else none
        landedTargetBaseOid := if landed then row.landedTargetBaseOid else none
        conflictPaths := conflictPaths.or row.conflictPaths
        errorDetail := errorDetail.or row.errorDetail }
      (r.1, unclaimedResult db r.2)

def setMergeTarget (db : MergeDb) (env : Env) (targetBranch : Text) : MergeDb × Except Text Unit :=
  let r := writeUnclaimed db fun row => { row with targetBranch, updatedAt := env.now }
  (r.1, unclaimedResult db r.2)

def setMergeAgentAttempts (db : MergeDb) (env : Env) (attempts : UInt32) :
    MergeDb × Except Text Unit :=
  let r := writeUnclaimed db fun row =>
    { row with agentAttempts := attempts.toNat, updatedAt := env.now }
  (r.1, unclaimedResult db r.2)

/-- The row queued again, with a full budget. -/
def MergeRow.rearm (row : MergeRow) (now : Int) : MergeRow :=
  { row with
    status := "queued".toList, agentAttempts := 0, updatedAt := now, resultOid := none
    conflictPaths := none, errorDetail := none, landedSourceOid := none
    landedTargetBaseOid := none }

def retryMergeEntry (db : MergeDb) (env : Env) : MergeDb × Bool :=
  let r := writeUnclaimed db fun row => row.rearm env.now
  (r.1, decide (0 < r.2))

inductive MergeRetryOutcome
  | rearmed
  | notQueued
  | notRetryable (status : Text)
  | claimed

/-- The text of a held status. -/
def heldStatus (status : Text) : Bool := (MqStatus.parse status).any MqStatus.isHeld

def retryHeldMergeEntry (db : MergeDb) (env : Env) : MergeDb × MergeRetryOutcome :=
  match db.row with
  | none => (db, .notQueued)
  | some row =>
    let note := fun outcome newStatus => recordMergeEvent db.events
      (rowEvent env row "retry".toList outcome newStatus env.actor)
    if row.claimOwner.isSome then
      ({ db with events := note "claimed".toList none }, .claimed)
    else if heldStatus row.status = false then
      ({ db with events := note "not_retryable".toList none }, .notRetryable row.status)
    else
      ({ row := some (row.rearm env.now)
         events := note "rearmed".toList (some "queued".toList) }, .rearmed)

def recordMergeRefusal (db : MergeDb) (env : Env) (operation outcome : Text) : MergeDb × Bool :=
  match db.row with
  | none => (db, false)
  | some row =>
    ({ db with
        events := recordMergeEvent db.events
          (rowEvent env row operation outcome none env.actor) }, true)

/-! ## Compare and swap -/

/-- `adopt_merge_candidate`: a repaired candidate for the one the caller saw. -/
def adoptMergeCandidate (db : MergeDb) (env : Env) (expected : MergeCandidate)
    (candidateOid : Text) : MergeDb × Bool :=
  let r := updateRow db.row
    (fun row => row.branchRef == some expected.branchRef
      && row.candidateOid == some expected.candidateOid
      && decide (row.status = "folding".toList))
    fun row => { row with candidateOid := some candidateOid, updatedAt := env.now }
  ({ db with row := r.1 }, r.2 == 1)

/-- A row as `list_merge_queue` shows it. -/
structure MergeQueueRow where
  branch : Text
  targetBranch : Text
  status : Text
  queuedAt : Int
  updatedAt : Int
  resultOid : Option Text
  conflictPaths : Option Text
  errorDetail : Option Text
  location : Text
  agentAttempts : Nat
  deriving DecidableEq

def mergeQueueRow (row : MergeRow) : MergeQueueRow :=
  { branch := row.branch, targetBranch := row.targetBranch, status := row.status
    queuedAt := row.queuedAt, updatedAt := row.updatedAt, resultOid := row.resultOid
    conflictPaths := row.conflictPaths, errorDetail := row.errorDetail
    location := row.location.getD [], agentAttempts := row.agentAttempts.toNat }

def backfillLandedResultOid (db : MergeDb) (expected : MergeQueueRow) (resultOid : Text) :
    MergeDb × Except Text Bool :=
  if resultOid = [] then (db, .error "landed result OID cannot be empty".toList)
  else if expected.status ≠ "landed".toList ∨ nonempty expected.resultOid then
    (db, .error "backfill requires a landed row with a missing result OID".toList)
  else
    let r := updateRow db.row
      (fun row => row.branch == expected.branch && row.targetBranch == expected.targetBranch
        && decide (row.status = "landed".toList) && row.updatedAt == expected.updatedAt
        && !nonempty row.resultOid)
      fun row => { row with resultOid := some resultOid }
    ({ db with row := r.1 }, .ok (r.2 == 1))

/-- Mark the cleanup of a landed row, if it is still as the caller saw it and has no hold. -/
def markCleanup (db : MergeDb) (seen : MergeQueueRow) (marker : Text) : MergeDb × Bool :=
  if seen.status ≠ "landed".toList ∨ nonempty seen.resultOid = false
      ∨ seen.errorDetail = some branchRetained then (db, false)
  else
    let r := updateRow db.row
      (fun row => row.branch == seen.branch && row.targetBranch == seen.targetBranch
        && row.status == seen.status && row.queuedAt == seen.queuedAt
        && row.updatedAt == seen.updatedAt && row.resultOid == seen.resultOid
        && row.conflictPaths == seen.conflictPaths && row.errorDetail == seen.errorDetail
        && row.location.getD [] == seen.location && row.agentAttempts == seen.agentAttempts)
      fun row => { row with errorDetail := some marker }
    ({ db with row := r.1 }, r.2 == 1)

def holdMergeCleanup (db : MergeDb) (seen : MergeQueueRow) : MergeDb × Bool :=
  markCleanup db seen branchRetained

structure CleanupRetry where
  attempts : UInt32
  nextAt : Int

def CleanupRetry.marker (retry : CleanupRetry) : Text :=
  "thegn-cleanup-retry:v1:".toList ++ ofNat retry.attempts.toNat ++ [':']
    ++ (toString retry.nextAt).toList

def deferMergeCleanup (db : MergeDb) (seen : MergeQueueRow) (retry : CleanupRetry) :
    MergeDb × Bool :=
  markCleanup db seen retry.marker

/-! ## Final outcomes -/

inductive MergeFinalStatus
  | landed
  | deferred
  | gateFailed
  | gateError
  deriving DecidableEq

def MergeFinalStatus.asStr : MergeFinalStatus → Text
  | .landed => "landed".toList
  | .deferred => "deferred".toList
  | .gateFailed => "gate_failed".toList
  | .gateError => "gate_error".toList

inductive MergeOutcomeOperation
  | land
  | rawLand
  | integrate

def MergeOutcomeOperation.asStr : MergeOutcomeOperation → Text
  | .land => "land".toList
  | .rawLand => "raw_land".toList
  | .integrate => "integrate".toList

structure MergeFinalOutcome where
  worktree : Text
  branch : Text
  repoRoot : Text
  targetBranch : Text
  location : Text
  status : MergeFinalStatus
  operation : MergeOutcomeOperation
  resultOid : Option Text
  conflictPaths : Option Text
  errorDetail : Option Text

structure MergeOutcomeObservation where
  worktree : Text
  registry : Option MergeRegistryIdentity
  queue : Option MergeQueueRow
  queueLocation : Option Text

inductive MergeOutcomeWrite
  | written
  | registryChanged
  | queueChanged
  | claimed
  deriving DecidableEq

def validateMergeOutcome (observed : MergeOutcomeObservation) (outcome : MergeFinalOutcome) :
    Except Text Unit :=
  if ¬ (observed.worktree = outcome.worktree ∧ outcome.worktree ≠ [] ∧ outcome.branch ≠ []
      ∧ outcome.repoRoot ≠ [] ∧ outcome.targetBranch ≠ []) then
    .error "merge outcome does not match its observed worktree/context".toList
  else if observed.registry.any fun reg => !(reg.branch == some outcome.branch
      && reg.repoPath == some outcome.repoRoot
      && mergeLocation reg.location == mergeLocation (some outcome.location)) then
    .error "merge outcome does not match its observed registry context".toList
  else if observed.queue.any fun queue => !(queue.branch == outcome.branch
      && mergeLocation (some queue.location) == mergeLocation (some outcome.location)) then
    .error "merge outcome does not match its observed queue branch/location".toList
  else if observed.registry = none ∧ observed.queue = none
      ∧ mergeLocation (some outcome.location) ≠ [] then
    .error "unregistered merge outcome has no observed remote location".toList
  else if ¬ (if outcome.status = .landed then nonempty outcome.resultOid = true
      else outcome.resultOid = none) then
    .error "merge outcome result OID is inconsistent with final status".toList
  else .ok ()

/-- `persist_merge_outcome`. -/
def persistMergeOutcome (db : MergeDb) (env : Env) (observed : MergeOutcomeObservation)
    (outcome : MergeFinalOutcome) : MergeDb × Except Text MergeOutcomeWrite :=
  match validateMergeOutcome observed outcome with
  | .error e => (db, .error e)
  | .ok () =>
    if (db.row.bind (·.claimOwner)).isSome then (db, .ok .claimed)
    else if env.registry ≠ observed.registry then (db, .ok .registryChanged)
    else if db.row.map mergeQueueRow ≠ observed.queue
        ∨ db.row.bind (·.location) ≠ observed.queueLocation then (db, .ok .queueChanged)
    else if outcome.status = .landed ∧ db.row.any (fun row => row.status = "landed".toList) then
      (db, .ok .written)
    else
      let location := match observed.registry with
        | some reg => reg.location
        | none => observed.queueLocation
      let fill := fun row : MergeRow => { row with
        branch := outcome.branch, targetBranch := outcome.targetBranch
        status := outcome.status.asStr, updatedAt := env.now, resultOid := outcome.resultOid
        conflictPaths := outcome.conflictPaths, landedSourceOid := none
        landedTargetBaseOid := none, errorDetail := outcome.errorDetail, location }
      let r := upsertRow db.row
        (fill (newRow outcome.branch outcome.targetBranch outcome.status.asStr env.now location))
        fill
      if r.2 = 0 then (db, .ok .claimed)
      else if db.row.any fun row => row.status == outcome.status.asStr then
        ({ db with row := r.1 }, .ok .written)
      else
        let event : MergeQueueEvent :=
          { operation := outcome.operation.asStr
            outcome := if db.row.isSome then "transition".toList else "created".toList
            oldStatus := (db.row.map (·.status)).getD []
            newStatus := some outcome.status.asStr
            rowUpdatedAt := (db.row.map (·.updatedAt)).getD 0
            candidateOid := db.row.bind (·.candidateOid)
            resultOid := outcome.resultOid, targetBaseOid := none
            actor := env.actor, atMs := env.nowMs }
        ({ row := r.1, events := recordMergeEvent db.events event }, .ok .written)

end Thegn.MergeQueue
