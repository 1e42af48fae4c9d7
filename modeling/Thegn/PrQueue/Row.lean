import Thegn.Lib.Utf8
import Thegn.Lib.Table

set_option autoImplicit false

/-! # The PR queue table

The statements of `thegn-core/src/db_aux.rs` and `db_pr_agent_outcome.rs` on `pr_queue`, and the
admission decision of `pr_queue.rs`. Every operation is one transaction: it takes the database and
the time, and returns the database with its result. A transaction that is dropped before its commit
leaves the database as it was.

`nowMs` is the wall clock in milliseconds, and `nowMs / 1000` the same clock in seconds. Statuses
are text, as in the table; a PR number is a natural number (the source casts it to `i64`, which it
never exceeds).
-/

namespace Thegn.PrQueue

open Text Table

/-! ## Identity of a repository -/

structure ForgeRepoIdentity where
  host : Text
  path : Text
  deriving DecidableEq

def toAsciiLowercase (t : Text) : Text := t.map Char.toLower

def validIdentityComponent (component : Text) : Bool :=
  !component.isEmpty && component != ".".toList && component != "..".toList
    && decide (byteLen component ≤ 256)
    && component.all fun c => c.isAlphanum || c == '-' || c == '_' || c == '.'

def validIdentityHost (host : Text) : Bool :=
  !host.isEmpty && (host.splitOn '.').all fun part =>
    !part.isEmpty && part.head? != some '-' && part.getLast? != some '-'
      && part.all fun c => c.isAlphanum || c == '-'

/-- Drop a trailing `.git`, as a segment of its own or as an ending. -/
def dropGitSuffix (parts : List Text) : List Text :=
  match parts.getLast? with
  | some last =>
    if last = ".git".toList then parts.dropLast
    else
      match stripSuffix ".git".toList last with
      | some without => parts.dropLast ++ [without]
      | none => parts
  | none => parts

def identityFromHostPath (host path : Text) : Option ForgeRepoIdentity :=
  if !validIdentityHost host
      || path.any (fun c => decide (c.toNat < 32) || c.toNat == 127 || c == '?' || c == '#') then
    none
  else
    let path := trimEndMatches (· == '/') (path.dropWhile (· == '/'))
    let parts := dropGitSuffix (path.splitOn '/')
    if parts.length < 2 ∨ parts.any (fun p => !validIdentityComponent p) then none
    else some { host := toAsciiLowercase host, path := join ['/'] parts }

/-- The part of an HTTP(S) URL after the scheme, cut at the first `/`. -/
def urlHostPath (url : Text) : Option (Text × Text) := do
  let rest ← (stripPrefix "https://".toList url).or (stripPrefix "http://".toList url)
  splitOnce ['/'] rest

/-- Host and repository path of a PR or issue URL. -/
def repoIdentityFromPrUrl (url : Text) : Option ForgeRepoIdentity := do
  if byteLen url > 4096 ∨ ¬ url.all (fun c => decide (c.toNat < 128)) then none
  else
    let (host, path) ← urlHostPath url
    let parts := (trimEndMatches (· == '/') path).splitOn '/'
    let number ← parseUnsigned (2 ^ 64) (parts.getLastD [])
    if number = 0 then none
    else
      let parts := parts.dropLast
      let marker ← parts.getLast?
      if marker ∉ ["pull".toList, "pulls".toList, "issues".toList, "merge_requests".toList]
        then none
      else
        let parts := parts.dropLast
        let parts := if parts.getLast? = some ['-'] then parts.dropLast else parts
        identityFromHostPath host (join ['/'] parts)

def prUrlNumberMatches (url : Text) (expected : Nat) : Bool :=
  match urlHostPath url with
  | none => false
  | some (_, path) =>
    let parts := (trimEndMatches (· == '/') path).splitOn '/'
    match parts.dropLast.getLast? with
    | none => false
    | some route =>
      decide (route ∈ ["pull".toList, "pulls".toList, "merge_requests".toList])
        && parseUnsigned (2 ^ 64) (parts.getLastD []) == some expected

/-- The primary key of a row. -/
def makeKey (repoRoot forge : Text) (identity : Option ForgeRepoIdentity) (number : Nat) : Text :=
  match identity with
  | some identity =>
    repoRoot ++ ['#'] ++ forge ++ [':'] ++ toAsciiLowercase identity.host ++ ['/']
      ++ toAsciiLowercase identity.path ++ ['#'] ++ ofNat number
  | none => repoRoot ++ ['#'] ++ ofNat number

/-! ## Rows -/

inductive PrqStatus
  | watching
  | blockedCi
  | blockedConflict
  | blockedReview
  | agentRunning
  | ready
  | merging
  | merged
  | needsHuman
  | closed
  deriving DecidableEq, Repr

def PrqStatus.all : List PrqStatus :=
  [.watching, .blockedCi, .blockedConflict, .blockedReview, .agentRunning, .ready, .merging,
    .merged, .needsHuman, .closed]

def PrqStatus.asStr : PrqStatus → Text
  | .watching => "watching".toList
  | .blockedCi => "blocked_ci".toList
  | .blockedConflict => "blocked_conflict".toList
  | .blockedReview => "blocked_review".toList
  | .agentRunning => "agent_running".toList
  | .ready => "ready".toList
  | .merging => "merging".toList
  | .merged => "merged".toList
  | .needsHuman => "needs_human".toList
  | .closed => "closed".toList

def PrqStatus.parse (s : Text) : Option PrqStatus := PrqStatus.all.find? fun st => st.asStr = s

def PrqStatus.isSettled : PrqStatus → Bool
  | .merged | .closed | .needsHuman => true
  | _ => false

/-- The columns of a `pr_queue` row besides its key. -/
structure PrRow where
  repoRoot : Text
  number : Nat
  worktree : Option Text
  branch : Text
  baseBranch : Text
  forge : Text
  status : Text
  blocker : Option Text
  detail : Option Text
  agentAttempts : Int
  ciRerunHead : Option Text
  lastHeadOid : Option Text
  queuedAt : Int
  updatedAt : Int
  prUrl : Option Text
  forgeHost : Option Text
  project : Option Text
  checkoutGen : Int
  claimOwner : Option Text
  claimGeneration : Int
  claimLeaseUntilMs : Option Int
  claimOwnerHint : Option Text
  agentOutcome : Option Text
  agentOutcomeGen : Option Int
  agentOutcomeAt : Option Int

/-- The primary key of `ci_autofix_dedupe`. -/
structure CiKey where
  worktree : Text
  runId : Text
  jobId : Text
  headSha : Text
  attempt : Int
  deriving DecidableEq

structure CiEntry where
  claimedAt : Int
  context : Text
  deriving DecidableEq

structure PrDb where
  rows : Table Text PrRow
  ci : Table CiKey CiEntry

def PrDb.empty : PrDb := { rows := ∅, ci := ∅ }

structure PrAgentLease where
  key : Text
  generation : Int
  attempt : Nat
  leaseUntilMs : Int
  ownerToken : Text
  deriving DecidableEq

/-- No agent holds the row: no owner, no lease, or a lease that ran out. -/
def PrRow.unclaimed (row : PrRow) (nowMs : Int) : Bool :=
  row.claimOwner.isNone || row.claimLeaseUntilMs.all fun stop => stop < nowMs

/-- The row is held under this lease. -/
def PrRow.heldBy (row : PrRow) (lease : PrAgentLease) : Bool :=
  row.claimOwner == some lease.ownerToken && row.claimGeneration == lease.generation

/-- The lease has not run out. -/
def PrRow.leaseLive (row : PrRow) (nowMs : Int) : Bool :=
  row.claimLeaseUntilMs.any fun stop => nowMs ≤ stop

/-! ## Queueing -/

/-- A row as it is inserted. -/
def newRow (repoRoot : Text) (number : Nat) (worktree : Option Text)
    (branch baseBranch forge : Text) (prUrl host project : Option Text) (now : Int) : PrRow :=
  { repoRoot, number, worktree, branch, baseBranch, forge
    status := "watching".toList, blocker := none, detail := none, agentAttempts := 0
    ciRerunHead := none, lastHeadOid := none, queuedAt := now, updatedAt := now
    prUrl, forgeHost := host, project, checkoutGen := 0
    claimOwner := none, claimGeneration := 0, claimLeaseUntilMs := none, claimOwnerHint := none
    agentOutcome := none, agentOutcomeGen := none, agentOutcomeAt := none }

/-- `enqueue_pr`: insert the row, or watch it again from the start. -/
def enqueuePr (db : PrDb) (repoRoot : Text) (number : Nat) (worktree : Option Text)
    (branch baseBranch forge : Text) (nowMs : Int) : PrDb :=
  let key := makeKey repoRoot forge none number
  let now := nowMs / 1000
  match db.rows.lookup key with
  | some row =>
    { db with rows := db.rows.insert key { row with
        worktree := worktree.or row.worktree
        branch, baseBranch, forge
        status := "watching".toList, blocker := none, detail := none
        agentAttempts := 0, updatedAt := now } }
  | none =>
    let row := newRow repoRoot number worktree branch baseBranch forge none none none now
    { db with rows := db.rows.insert key row }

/-- `enqueue_bound_pr`. A failed check drops the transaction, with the deletion of the legacy
row. -/
def enqueueBoundPr (db : PrDb) (repoRoot : Text) (number : Nat) (worktree : Option Text)
    (branch baseBranch forge prUrl : Text) (nowMs : Int) : Except Text PrDb := do
  let identity ← (repoIdentityFromPrUrl prUrl).elim
    (.error "invalid PR URL; rebind the queue row after verifying its identity".toList) .ok
  if prUrlNumberMatches prUrl number = false then
    .error ("PR URL does not identify PR #".toList ++ ofNat number)
  else
    let now := nowMs / 1000
    let key := makeKey repoRoot forge (some identity) number
    let host := toAsciiLowercase identity.host
    let project := toAsciiLowercase identity.path
    let legacyKey := makeKey repoRoot forge none number
    let rows := (deleteWhere db.rows legacyKey fun row => row.prUrl.isNone).1
    match rows.lookup key with
    | some row =>
      if row.worktree ≠ worktree ∨ row.branch ≠ branch then
        .error ("PR queue checkout changed; run `thegn pr queue rebind --pr ".toList
          ++ ofNat number ++ ['`'])
      else
        .ok { db with rows := rows.insert key { row with
          baseBranch, forgeHost := some host, project := some project, prUrl := some prUrl
          status := "watching".toList, blocker := none, detail := none
          agentAttempts := 0, updatedAt := now } }
    | none =>
      let row := newRow repoRoot number worktree branch baseBranch forge (some prUrl)
        (some host) (some project) now
      .ok { db with rows := rows.insert key row }

structure PrRebind where
  worktree : Option Text
  branch : Text
  baseBranch : Text
  forge : Text
  prUrl : Text

/-- `rebind_pr`: give the row another checkout, and with it another key. -/
def rebindPr (db : PrDb) (oldKey : Text) (binding : PrRebind) (nowMs : Int) :
    Except Text (PrDb × Text) := do
  let identity ← (repoIdentityFromPrUrl binding.prUrl).elim
    (.error "invalid PR URL for rebind".toList) .ok
  let old ← (db.rows.lookup oldKey).elim
    (.error ("PR queue row ".toList ++ oldKey ++ " no longer exists".toList)) .ok
  if old.claimOwner.isSome ∧ old.leaseLive nowMs then
    .error "a PR agent is running for this row; rebind after it finishes".toList
  else if prUrlNumberMatches binding.prUrl old.number = false then
    .error "PR URL does not match the queued PR number".toList
  else
    let newKey := makeKey old.repoRoot binding.forge (some identity) old.number
    if newKey ≠ oldKey ∧ (db.rows.lookup newKey).isSome then
      .error "PR queue identity already belongs to another row".toList
    else
      let row := { old with
        worktree := binding.worktree, branch := binding.branch, baseBranch := binding.baseBranch
        forge := binding.forge, prUrl := some binding.prUrl
        forgeHost := some (toAsciiLowercase identity.host)
        project := some (toAsciiLowercase identity.path)
        checkoutGen := old.checkoutGen + 1, status := "watching".toList, blocker := none
        detail := none, ciRerunHead := none, updatedAt := nowMs / 1000 }
      .ok ({ db with rows := (db.rows.erase oldKey).insert newKey row }, newKey)

/-! ## Status writes -/

/-- Write to a row that no agent holds. -/
def updateUnclaimed (db : PrDb) (key : Text) (nowMs : Int) (f : PrRow → PrRow) : PrDb × Nat :=
  let r := updateWhere db.rows key (fun row => row.unclaimed nowMs) f
  ({ db with rows := r.1 }, r.2)

def updatePrStatus (db : PrDb) (key status : Text) (blocker detail lastHeadOid : Option Text)
    (nowMs : Int) : PrDb :=
  (updateUnclaimed db key nowMs fun row => { row with
    status
    blocker := blocker.or row.blocker
    detail := detail.or row.detail
    ciRerunHead :=
      if lastHeadOid.isSome ∧ row.lastHeadOid ≠ lastHeadOid then none else row.ciRerunHead
    lastHeadOid := lastHeadOid.or row.lastHeadOid
    updatedAt := nowMs / 1000 }).1

def updatePrDetail (db : PrDb) (key detail : Text) (nowMs : Int) : PrDb :=
  (updateUnclaimed db key nowMs fun row =>
    { row with detail := some detail, updatedAt := nowMs / 1000 }).1

def setPrAgentAttempts (db : PrDb) (key : Text) (attempts : UInt32) (nowMs : Int) : PrDb × Nat :=
  updateUnclaimed db key nowMs fun row =>
    { row with agentAttempts := attempts.toNat, updatedAt := nowMs / 1000 }

/-! ## Admission -/

structure CiLogCandidate where
  worktree : Text
  runId : Text
  jobId : Text
  headSha : Text
  context : Text
  attempt : Option Nat

/-- The attempt a candidate is stored under, `-1` when it is unknown or no `i64`. -/
def ciAutofixAttemptKey (c : CiLogCandidate) : Int :=
  match c.attempt with
  | some attempt => if attempt < 2 ^ 63 then attempt else -1
  | none => -1

/-- `CLAIM_CI_AUTOFIX_SQL`: the table and the number of rows written. -/
def claimCiAutofix (ci : Table CiKey CiEntry) (c : CiLogCandidate) (now : Int) :
    Table CiKey CiEntry × Nat :=
  let key : CiKey :=
    { worktree := c.worktree, runId := c.runId, jobId := c.jobId, headSha := c.headSha
      attempt := ciAutofixAttemptKey c }
  match ci.lookup key with
  | none => (ci.insert key { claimedAt := now, context := c.context }, 1)
  | some entry =>
    if entry.context ≠ [] ∧ c.context ≠ [] ∧ entry.context ≠ c.context then
      (ci.insert key { claimedAt := now, context := c.context }, 1)
    else (ci, 0)

structure PrAgentAdmit where
  key : Text
  expectedAttempts : UInt32
  expectedCheckoutGen : Int
  maxAttempts : UInt32
  head : Text
  blocker : Text
  detail : Text
  leaseUntilMs : Int
  ownerHint : Option Text
  ciCandidate : Option CiLogCandidate

inductive PrAgentRefusal
  | missing
  | invalidLease
  | settled (status : Text)
  | held (generation leaseUntilMs : Int)
  | stale (reason : Text)
  | budgetExhausted (attempts max : Nat)
  | duplicateCandidate
  deriving DecidableEq

inductive PrAgentAdmission
  | admitted (lease : PrAgentLease)
  | refused (refusal : PrAgentRefusal)

structure PrAgentRowSnapshot where
  status : Text
  agentAttempts : Nat
  checkoutGen : Int
  claimOwnerPresent : Bool
  claimGeneration : Int
  claimLeaseUntilMs : Option Int

/-- What an admission reads of a row; attempts are clamped to a `u32`. -/
def PrRow.snapshot (row : PrRow) : PrAgentRowSnapshot :=
  { status := row.status
    agentAttempts := min (max row.agentAttempts 0).toNat (2 ^ 32 - 1)
    checkoutGen := row.checkoutGen
    claimOwnerPresent := row.claimOwner.isSome
    claimGeneration := row.claimGeneration
    claimLeaseUntilMs := row.claimLeaseUntilMs }

def decidePrAgentAdmission (row : PrAgentRowSnapshot) (request : PrAgentAdmit) (nowMs : Int) :
    Except PrAgentRefusal Unit :=
  match PrqStatus.parse row.status with
  | none => .error (.settled row.status)
  | some status =>
    if status.isSettled then .error (.settled row.status)
    else if row.claimOwnerPresent ∧ row.claimLeaseUntilMs.any (fun stop => nowMs ≤ stop) then
      .error (.held row.claimGeneration (row.claimLeaseUntilMs.getD nowMs))
    else if row.checkoutGen ≠ request.expectedCheckoutGen then
      .error (.stale "checkout generation differs".toList)
    else if row.agentAttempts ≠ request.expectedAttempts.toNat then
      .error (.stale "attempt count differs".toList)
    else if request.maxAttempts.toNat ≤ row.agentAttempts then
      .error (.budgetExhausted row.agentAttempts request.maxAttempts.toNat)
    else .ok ()

/-- `PR_AGENT_MAX_LEASE_MS`. -/
def maxLeaseMs : Int := 5 * 60 * 1000

/-- `saturating_sub` on `i64`. -/
def saturatingSub (a b : Int) : Int := max (-(2 ^ 63)) (min (2 ^ 63 - 1) (a - b))

def validLease (leaseUntilMs nowMs : Int) : Bool :=
  decide (nowMs < leaseUntilMs) && decide (saturatingSub leaseUntilMs nowMs ≤ maxLeaseMs)

/-- `admit_pr_agent`, with the freshly minted token. Every refusal drops the transaction, the claim
of the CI candidate included. -/
def admitPrAgent (db : PrDb) (request : PrAgentAdmit) (nowMs : Int) (token : Text) :
    PrDb × Except Text PrAgentAdmission :=
  if validLease request.leaseUntilMs nowMs = false then (db, .ok (.refused .invalidLease))
  else
    match db.rows.lookup request.key with
    | none => (db, .ok (.refused .missing))
    | some row =>
      let snapshot := row.snapshot
      match decidePrAgentAdmission snapshot request nowMs with
      | .error refusal => (db, .ok (.refused refusal))
      | .ok () =>
        let claimed :=
          match request.ciCandidate with
          | some candidate => claimCiAutofix db.ci candidate (nowMs / 1000)
          | none => (db.ci, 1)
        if claimed.2 = 0 then (db, .ok (.refused .duplicateCandidate))
        else
          let written := updateWhere db.rows request.key
            (fun r => r.claimGeneration == snapshot.claimGeneration)
            fun r => { r with
              status := "agent_running".toList
              blocker := some request.blocker
              detail := some request.detail
              lastHeadOid := some request.head
              agentAttempts := r.agentAttempts + 1
              claimOwner := some token
              claimGeneration := r.claimGeneration + 1
              claimLeaseUntilMs := some request.leaseUntilMs
              claimOwnerHint := request.ownerHint
              updatedAt := nowMs / 1000 }
          if written.2 ≠ 1 then
            (db, .error "PR-agent admission row changed during immediate transaction".toList)
          else
            ({ rows := written.1, ci := claimed.1 }, .ok (.admitted
                { key := request.key
                  generation := snapshot.claimGeneration + 1
                  attempt := snapshot.agentAttempts + 1
                  leaseUntilMs := request.leaseUntilMs
                  ownerToken := token }))

/-! ## Writes under a lease -/

/-- Write to the row held under the lease. -/
def updateHeld (db : PrDb) (lease : PrAgentLease) (cond : PrRow → Bool) (f : PrRow → PrRow) :
    PrDb × Bool :=
  let r := updateWhere db.rows lease.key (fun row => row.heldBy lease && cond row) f
  ({ db with rows := r.1 }, r.2 == 1)

def renewPrAgent (db : PrDb) (lease : PrAgentLease) (leaseUntilMs nowMs : Int) :
    PrDb × Except Text PrAgentLease :=
  if validLease leaseUntilMs nowMs = false then (db, .error "invalid PR-agent lease".toList)
  else
    let r := updateHeld db lease (fun row => row.leaseLive nowMs)
      fun row => { row with claimLeaseUntilMs := some leaseUntilMs }
    if r.2 then (r.1, .ok { lease with leaseUntilMs })
    else (db, .error "PR agent lease lost".toList)

/-- The row without its claim. -/
def PrRow.freed (row : PrRow) : PrRow :=
  { row with claimOwner := none, claimLeaseUntilMs := none, claimOwnerHint := none }

/-- The status and detail a finished agent leaves, if the row still says that it runs. -/
def PrRow.finished (row : PrRow) (status detail : Text) (now : Int) : PrRow :=
  if row.status = "agent_running".toList then
    { row with status, detail := some detail, updatedAt := now }
  else { row with updatedAt := now }

def releasePrAgent (db : PrDb) (lease : PrAgentLease) (finished : Option (Text × Text))
    (nowMs : Int) : PrDb × Bool :=
  updateHeld db lease (fun _ => true) fun row =>
    match finished with
    | some (status, detail) => row.freed.finished status detail (nowMs / 1000)
    | none => { row.freed with updatedAt := nowMs / 1000 }

/-- `refund_pr_agent_attempt`: give back the attempt of this lease. -/
def refundPrAgentAttempt (db : PrDb) (lease : PrAgentLease) (status detail : Text) (nowMs : Int) :
    PrDb × Except Text Bool :=
  if PrqStatus.parse status = none then
    (db, .error ("unknown PR-queue status \"".toList ++ status ++ ['"']))
  else
    let r := updateHeld db lease
      (fun row => row.leaseLive nowMs && row.agentAttempts == lease.attempt
        && decide (0 < row.agentAttempts))
      fun row => { row.freed.finished status detail (nowMs / 1000) with
        agentAttempts := row.agentAttempts - 1 }
    (r.1, .ok r.2)

def recordPrAgentHead (db : PrDb) (lease : PrAgentLease) (admittedHead ownHead : Text)
    (nowMs : Int) : PrDb × Except Text Bool :=
  if admittedHead = [] ∨ ownHead = [] ∨ admittedHead = ownHead then
    (db, .error "invalid PR-agent head record".toList)
  else
    let r := updateHeld db lease
      (fun row => row.leaseLive nowMs && row.lastHeadOid == some admittedHead)
      fun row => { row with
        lastHeadOid := some ownHead, ciRerunHead := none, updatedAt := nowMs / 1000 }
    (r.1, .ok r.2)

inductive AgentHeadOutcome
  | agentProgress
  | unchanged
  | localOnly
  | teammatePush
  | unverified
  | infraFailure
  | staleCompletion

def AgentHeadOutcome.asStr : AgentHeadOutcome → Text
  | .agentProgress => "agent_progress".toList
  | .unchanged => "unchanged".toList
  | .localOnly => "local_only".toList
  | .teammatePush => "teammate_push".toList
  | .unverified => "unverified".toList
  | .infraFailure => "infra_failure".toList
  | .staleCompletion => "stale_completion".toList

def recordPrAgentOutcome (db : PrDb) (lease : PrAgentLease) (outcome : AgentHeadOutcome)
    (nowMs : Int) : PrDb × Bool :=
  updateHeld db lease (fun row => row.leaseLive nowMs) fun row => { row with
    agentOutcome := some outcome.asStr
    agentOutcomeGen := some lease.generation
    agentOutcomeAt := some (nowMs / 1000) }

/-! ## Recovery and removal -/

/-- `reap_expired_pr_agent`: free a row whose lease ran out. -/
def reapExpiredPrAgent (db : PrDb) (key : Text) (generation : Int) (detail : Text) (nowMs : Int) :
    PrDb × Bool :=
  let r := updateWhere db.rows key
    (fun row => row.claimGeneration == generation && row.claimOwner.isSome
      && row.claimLeaseUntilMs.any fun stop => stop < nowMs)
    fun row => row.freed.finished "watching".toList detail (nowMs / 1000)
  ({ db with rows := r.1 }, r.2 == 1)

def reservePrCiRerun (db : PrDb) (key : Text) (expectedHead : Option Text) (head : Text)
    (nowMs : Int) : PrDb × Bool :=
  let r := updateWhere db.rows key
    (fun row => row.lastHeadOid == expectedHead && row.ciRerunHead != some head)
    fun row => { row with
      ciRerunHead := some head, lastHeadOid := some head, updatedAt := nowMs / 1000 }
  ({ db with rows := r.1 }, r.2 == 1)

inductive PrRemoval
  | removed
  | agentRunning
  | missing
  deriving DecidableEq

def removePrEntry (db : PrDb) (key : Text) (nowMs : Int) : PrDb × PrRemoval :=
  let r := deleteWhere db.rows key fun row => row.unclaimed nowMs
  ({ db with rows := r.1 },
    if r.2 = 1 then .removed
    else if (db.rows.lookup key).isSome then .agentRunning
    else .missing)

structure PrClearOutcome where
  removed : Nat
  keptRunning : List Nat

/-- `clear_pr_queue`: drop the rows of a repository that no agent holds. -/
def clearPrQueue (db : PrDb) (repoRoot : Text) (nowMs : Int) : PrDb × PrClearOutcome :=
  let kept := db.rows.entries.filter fun e =>
    decide (e.2.repoRoot = repoRoot) && e.2.claimOwner.isSome && e.2.leaseLive nowMs
  let r := deleteAll db.rows fun row => decide (row.repoRoot = repoRoot) && row.unclaimed nowMs
  ({ db with rows := r.1 },
    { removed := r.2, keptRunning := (kept.map fun e => e.2.number).mergeSort (· ≤ ·) })

end Thegn.PrQueue
