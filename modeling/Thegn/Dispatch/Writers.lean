import Thegn.Dispatch.Roster

set_option autoImplicit false

/-! # The writers of a row

The operations of `thegn-core/src/db_dispatch.rs` that change a row of the roster after its
insertion: status changes, the publication of a run, and the writers fenced on a run. Each answers
with the database it leaves.
-/

namespace Thegn.Dispatch

open Text

def forceReasonMaxChars : Nat := 512

/-- May `set-status` take a row from one status to another? -/
def setStatusTransitionAllowed (source target : AgentDispatchStatus) : Bool :=
  if target = .unknown || target = .queued then false
  else if source = target then true
  else
    match target with
    | .merged => source = .done || source = .prOpen
    | .done => source = .running || source = .spawning || source = .waitingHuman || source = .failed
    | _ =>
      source.isActive || (source = .done && target = .abandoned) ||
        (source = .failed && target = .abandoned)
        || (source = .unknown && (target = .failed || target = .abandoned))

/-- A run of a row, as it was observed. -/
structure DispatchRunRef where
  id : Int
  issueId : Text
  sessionId : Text
  runGen : Int
  deriving DecidableEq

/-- `COALESCE(session_id, '')`. -/
def AgentDispatch.session (r : AgentDispatch) : Text := r.sessionId.getD []

/-- The row still has the run. -/
def DispatchRunRef.current (run : DispatchRunRef) (r : AgentDispatch) : Bool :=
  r.session = run.sessionId && r.runGen = run.runGen

def dispatchRunRef (db : Db) (id : Int) : Option DispatchRunRef :=
  (db.getDispatch id).map fun r => ⟨r.id, r.issueId, r.session, r.runGen⟩

/-! ## Status changes -/

def optionNote (note : Option Text) : Except DispatchError (Option Text) :=
  match note with
  | none => .ok none
  | some n => ((noteText n).mapError .note).map some

def addIfSome (db : Db) (id now : Int) (note : Option Text) : Db :=
  match note with
  | some n => db.addNote id now n
  | none => db

/-- The audit note of a lead check. -/
def addAudit (db : Db) (id now : Int) (audit : Option Text) : Except DispatchError Db :=
  match audit with
  | some audit => ((noteText audit).mapError .note).map fun audit => db.addNote id now audit
  | none => .ok db

/-- The update of a status change; a row that has another status by now is reported. -/
def moveStatus (db : Db) (id : Int) (expected : AgentDispatchStatus)
    (f : AgentDispatch → AgentDispatch) : Except DispatchError Db :=
  match db.update id (fun r => r.status = expected) f with
  | (db', true) => .ok db'
  | (_, false) =>
    match db.getDispatch id with
    | none => .error (.missing id)
    | some r => .error (.stale id expected r.status)

def boundLease (db : Db) (id : Int) : List Text := ((db.getDispatch id).bind (·.leadLease)).toList

def setStatusBody (id : Int) (expected target : AgentDispatchStatus) (note : Option Text)
    (proof : Lease.LeadProof) (now : Int) (db : Db) : Except DispatchError (Unit × Db) := do
  let audit ← leadCheck db (boundLease db id) proof now
  let db ← moveStatus db id expected fun r => { r with status := target }
  let db ← addAudit (addIfSome db id now note) id now audit
  pure ((), db)

def setDispatchStatusLed (id : Int) (expected target : AgentDispatchStatus) (note : Option Text)
    (proof : Lease.LeadProof) (now : Int) (db : Db) : Except DispatchError Unit × Db :=
  if (db.getDispatch id).isNone then (.error (.missing id), db)
  else if !setStatusTransitionAllowed expected target
    then (.error (.illegal id expected target), db)
  else
    match optionNote note with
    | .error e => (.error e, db)
    | .ok note => transact (fun _ => true) (setStatusBody id expected target note proof now) db

def forcedBody (id : Int) (expected : AgentDispatchStatus) (reason : Text) (proof : Lease.LeadProof)
    (now : Int) (db : Db) : Except DispatchError (Unit × Db) := do
  let audit ← leadCheck db (boundLease db id) proof now
  let db ← moveStatus db id expected fun r =>
    { r with status := .done, override := some ⟨"force_done".toList, reason, now⟩ }
  let db ← addAudit (db.addNote id now ("set-status done (forced): ".toList ++ reason)) id now audit
  pure ((), db)

def setDispatchStatusForcedLed (id : Int) (expected target : AgentDispatchStatus) (reason : Text)
    (proof : Lease.LeadProof) (now : Int) (db : Db) : Except DispatchError Unit × Db :=
  if (db.getDispatch id).isNone then (.error (.missing id), db)
  else if !setStatusTransitionAllowed expected target
    then (.error (.illegal id expected target), db)
  else if target ≠ .done
    then (.error (.message "dispatch override only supports the done gate".toList), db)
  else
    match noteText reason with
    | .error e => (.error (.note e), db)
    | .ok reason =>
      if forceReasonMaxChars < reason.length then
        (.error (.message ("force reason exceeds ".toList ++ ofNat forceReasonMaxChars ++
          " characters".toList)), db)
      else transact (fun _ => true) (forcedBody id expected reason proof now) db

/-- The compare-and-set of a status, on the run if there is one. -/
def casDispatchStatus (id : Int) (fence : Option DispatchRunRef)
    (expected status : AgentDispatchStatus)
    (note : Option Text) (now : Int) (db : Db) : Except DispatchError Bool × Db :=
  match optionNote note with
  | .error e => (.error e, db)
  | .ok note =>
    match db.update id (fun r => r.status = expected && fence.all fun run => run.current r)
        (fun r => { r with status := status }) with
    | (db', true) => (.ok true, addIfSome db' id now note)
    | (_, false) => (.ok false, db)

def compareAndSetDispatchStatus (id : Int) (expected status : AgentDispatchStatus)
    (note : Option Text) (now : Int) (db : Db) : Except DispatchError Bool × Db :=
  casDispatchStatus id none expected status note now db

def compareAndSetDispatchStatusRun (run : DispatchRunRef) (expected status : AgentDispatchStatus)
    (note : Option Text) (now : Int) (db : Db) : Except DispatchError Bool × Db :=
  casDispatchStatus run.id (some run) expected status note now db

/-! ## Publications -/

inductive PublishOutcome
  | published
  | missing
  | stateChanged (status : AgentDispatchStatus)
  deriving DecidableEq

/-- The row with a session bound to it. -/
def AgentDispatch.bound (sessionId : Text) (r : AgentDispatch) : AgentDispatch :=
  { r with sessionId := some sessionId, runGen := r.runGen + 1, nativeSessionId := none,
           reportHeadOid := none }

/-- The row with a new run, after a retry. -/
def AgentDispatch.retried (sessionId artifactPath : Text) (r : AgentDispatch) : AgentDispatch :=
  { r with
    status := .running
    sessionId := some sessionId
    artifactPath := some artifactPath
    exitCode := none
    exitedAtMs := none
    runGen := r.runGen + 1
    nativeSessionId := none
    reportHeadOid := none }

/-- The row with a new run. -/
def AgentDispatch.published (sessionId artifactPath : Text) (r : AgentDispatch) : AgentDispatch :=
  { r with
    sessionId := some sessionId
    artifactPath := some artifactPath
    status := .running
    runGen := r.runGen + 1
    exitCode := none
    exitedAtMs := none
    nativeSessionId := none
    reportHeadOid := none
    retryAttempt := 0
    retryCountedGen := none
    retryLastClass := none }

/-- An active row without a session is bound to one. -/
def bindDispatchSession (id : Int) (sessionId : Text) (db : Db) : Bool × Db :=
  if sessionId = [] then (false, db)
  else
    let (db', changed) :=
      db.update id (fun r => r.status.isActive && r.session = []) (AgentDispatch.bound sessionId)
    (changed, db')

def publishDispatchRun (id : Int) (sessionId artifactPath : Text) (db : Db) : PublishOutcome × Db :=
  match db.update id (fun r => r.status = .queued || r.status = .spawning)
      (AgentDispatch.published sessionId artifactPath) with
  | (db', true) => (.published, db')
  | (_, false) =>
    match db.getDispatch id with
    | some r => (.stateChanged r.status, db)
    | none => (.missing, db)

def compareAndSetDispatchRetryRun (id : Int) (expected : AgentDispatchStatus)
    (sessionId artifactPath : Text) (db : Db) : Bool × Db :=
  let (db', changed) :=
    db.update id (fun r => r.status = expected) (AgentDispatch.retried sessionId artifactPath)
  (changed, db')

/-! ## Writers of a run -/

/-- The row, parked for a human. -/
def AgentDispatch.parked (note : Text) (r : AgentDispatch) : AgentDispatch :=
  { r with status := .waitingHuman, note := some note }

/-- The row, parked with its retry budget cleared. -/
def AgentDispatch.settled (gen : Int) (note : Text) (r : AgentDispatch) : AgentDispatch :=
  { r.parked note with retryAttempt := 0, retryCountedGen := some gen, retryLastClass := none }

/-- The row, with one attempt more. -/
def AgentDispatch.counted (gen : Int) (failureClass : Text) (r : AgentDispatch) : AgentDispatch :=
  { r with
    retryAttempt := r.retryAttempt + 1
    retryCountedGen := some gen
    retryLastClass := some (failureClass.take 128) }

/-- An update with a note of the row. -/
def parkWhere (id : Int) (cond : AgentDispatch → Bool) (f : Text → AgentDispatch → AgentDispatch)
    (note : Text) (db : Db) : Except DispatchError Bool × Db :=
  match noteText note with
  | .error e => (.error (.note e), db)
  | .ok note =>
    let (db', changed) := db.update id cond (f note)
    (.ok changed, db')

def compareAndSetDispatchRetryPark (id : Int) (expected : AgentDispatchStatus) (note : Text)
    (db : Db) : Except DispatchError Bool × Db :=
  parkWhere id (fun r => r.status = expected) AgentDispatch.parked note db

def compareAndSetDispatchRetryParkRun (run : DispatchRunRef) (expected : AgentDispatchStatus)
    (note : Text) (db : Db) : Except DispatchError Bool × Db :=
  parkWhere run.id (fun r => r.status = expected && run.current r) AgentDispatch.parked note db

def compareAndSetDispatchRetrySettleRun (run : DispatchRunRef) (expected : AgentDispatchStatus)
    (note : Text) (db : Db) : Except DispatchError Bool × Db :=
  parkWhere run.id (fun r => r.status = expected && run.current r)
    (AgentDispatch.settled run.runGen) note db

/-- `u32::try_from(value).unwrap_or(u32::MAX)`. -/
def clampU32 (value : Int) : Nat := if 0 ≤ value && value < 2 ^ 32 then value.toNat else 2 ^ 32 - 1

/-- The number of attempts after this one is counted; none if it was counted before or the run is
over. -/
def countDispatchRetryAttemptRun (run : DispatchRunRef) (failureClass : Text) (db : Db) :
    Option Nat × Db :=
  match db.update run.id (fun r => run.current r && r.retryCountedGen ≠ some run.runGen)
      (AgentDispatch.counted run.runGen failureClass) with
  | (db', true) => ((db'.getDispatch run.id).map fun r => clampU32 r.retryAttempt, db')
  | (_, false) => (none, db)

def setDispatchNativeSession (run : DispatchRunRef) (nativeSessionId : Text) (db : Db) :
    Bool × Db :=
  if nativeSessionId = [] then (false, db)
  else
    let (db', changed) :=
      db.update run.id (fun r => run.current r && r.nativeSessionId.isNone) fun r =>
      { r with nativeSessionId := some nativeSessionId }
    (changed, db')

inductive ExitStamp
  | stamped
  | alreadyStamped
  | stale
  | missing
  deriving DecidableEq

def stampDispatchExit (run : DispatchRunRef) (exitCode : Option Int) (now : Int) (db : Db) :
    ExitStamp × Db :=
  match db.update run.id (fun r => run.current r && r.exitedAtMs.isNone) (fun r =>
      { r with exitCode := exitCode, exitedAtMs := some now }) with
  | (db', true) => (.stamped, db')
  | (_, false) =>
    match db.getDispatch run.id with
    | none => (.missing, db)
    | some r => if r.exitedAtMs.isSome && run.current r then (.alreadyStamped, db) else (.stale, db)

/-! ## What each writer does

Each writer leaves the database as it is, or changes the row it names in the way it says. -/

variable {db : Db}

/-- The columns that the scope gate reads, other than the status. -/
def SameScope (r r' : AgentDispatch) : Prop :=
  r'.issueId = r.issueId ∧ r'.worktreePath = r.worktreePath ∧ r'.chunkPath = r.chunkPath ∧
    r'.chunkScope = r.chunkScope

theorem bindDispatchSession_cases (hdb : db.WellFormed) (id : Int) (sid : Text) :
    bindDispatchSession id sid db = (false, db) ∨
      ∃ r db', db.getDispatch id = some r ∧ sid ≠ [] ∧ r.status.isActive = true ∧ r.session = [] ∧
        bindDispatchSession id sid db = (true, db') ∧ Changes db db' r (r.bound sid) := by
  unfold bindDispatchSession
  by_cases hsid : sid = []
  · exact .inl (if_pos hsid)
  · rw [if_neg hsid]
    rcases hdb.update_cases id (fun r => r.status.isActive &&
      r.session = []) (AgentDispatch.bound sid)
        (fun _ => rfl) with ⟨heq, -⟩ | ⟨r, db', hr, hcond, heq, hch⟩
    · rw [heq]
      exact .inl rfl
    · rw [heq]
      rw [Bool.and_eq_true, decide_eq_true_eq] at hcond
      exact .inr ⟨r, db', hr, hsid, hcond.1, hcond.2, rfl, hch⟩

theorem publishDispatchRun_cases (hdb : db.WellFormed) (id : Int) (sid path : Text) :
    (∃ o, o ≠ .published ∧ publishDispatchRun id sid path db = (o, db)) ∨
      ∃ r db', db.getDispatch id = some r ∧ (r.status = .queued ∨ r.status = .spawning) ∧
        publishDispatchRun id sid path db = (.published, db') ∧
        Changes db db' r (r.published sid path) := by
  unfold publishDispatchRun
  rcases hdb.update_cases id (fun r => r.status = .queued ||
    r.status = .spawning) (AgentDispatch.published sid path)
      (fun _ => rfl) with ⟨heq, -⟩ | ⟨r, db', hr, hcond, heq, hch⟩
  · rw [heq]
    left
    dsimp only
    cases db.getDispatch id with
    | none => exact ⟨.missing, nofun, rfl⟩
    | some r => exact ⟨.stateChanged r.status, nofun, rfl⟩
  · rw [heq]
    rw [Bool.or_eq_true, decide_eq_true_eq, decide_eq_true_eq] at hcond
    exact .inr ⟨r, db', hr, hcond, rfl, hch⟩

theorem compareAndSetDispatchRetryRun_cases (hdb : db.WellFormed) (id : Int)
    (expected : AgentDispatchStatus) (sid path : Text) :
    compareAndSetDispatchRetryRun id expected sid path db = (false, db) ∨
      ∃ r db', db.getDispatch id = some r ∧ r.status = expected ∧
        compareAndSetDispatchRetryRun id expected sid path db = (true, db') ∧ Changes db db' r
        (r.retried sid path) := by
  unfold compareAndSetDispatchRetryRun
  rcases hdb.update_cases id (fun r => r.status = expected) (AgentDispatch.retried sid path)
    (fun _ => rfl) with
    ⟨heq, -⟩ | ⟨r, db', hr, hcond, heq, hch⟩
  · rw [heq]
    exact .inl rfl
  · rw [heq]
    exact .inr ⟨r, db', hr, of_decide_eq_true hcond, rfl, hch⟩

theorem Changes.addIfSome {db' : Db} {r r' : AgentDispatch} (h : Changes db db' r r') (id now : Int)
    (note : Option Text) : Changes db (addIfSome db' id now note) r r' := by
  cases note with
  | none => exact h
  | some n => exact h.addNote id now n

theorem casDispatchStatus_cases (hdb : db.WellFormed) (id : Int) (fence : Option DispatchRunRef)
    (expected status : AgentDispatchStatus) (note : Option Text) (now : Int) :
    (∃ a, a ≠ .ok true ∧ casDispatchStatus id fence expected status note now db = (a, db)) ∨
      ∃ r db', db.getDispatch id = some r ∧ r.status = expected ∧
      (fence.all fun run => run.current r) = true ∧
        casDispatchStatus id fence expected status note now db = (.ok true, db') ∧
        Changes db db' r { r with status := status } := by
  unfold casDispatchStatus
  cases optionNote note with
  | error e => exact .inl ⟨.error e, nofun, rfl⟩
  | ok note =>
    dsimp only
    rcases hdb.update_cases id (fun r => r.status = expected && fence.all fun run => run.current r)
        (fun r => { r with status := status }) (fun _ => rfl)
          with ⟨heq, -⟩ | ⟨r, db', hr, hcond, heq, hch⟩
    · rw [heq]
      exact .inl ⟨.ok false, nofun, rfl⟩
    · rw [heq]
      rw [Bool.and_eq_true, decide_eq_true_eq] at hcond
      exact .inr ⟨r, _, hr, hcond.1, hcond.2, rfl, hch.addIfSome id now note⟩

theorem parkWhere_cases (hdb : db.WellFormed) (id : Int) (cond : AgentDispatch → Bool)
    (f : Text → AgentDispatch → AgentDispatch) (hf : ∀ n r, (f n r).id = r.id) (note : Text) :
    (∃ a, a ≠ .ok true ∧ parkWhere id cond f note db = (a, db)) ∨
      ∃ r db' n, db.getDispatch id = some r ∧ cond r = true ∧
      parkWhere id cond f note db = (.ok true, db') ∧ Changes db db' r (f n r) := by
  unfold parkWhere
  cases noteText note with
  | error e => exact .inl ⟨.error (.note e), nofun, rfl⟩
  | ok n =>
    dsimp only
    rcases hdb.update_cases id cond (f n) (hf n) with ⟨heq, -⟩ | ⟨r, db', hr, hcond, heq, hch⟩
    · rw [heq]
      exact .inl ⟨.ok false, nofun, rfl⟩
    · rw [heq]
      exact .inr ⟨r, db', n, hr, hcond, rfl, hch⟩

theorem countDispatchRetryAttemptRun_cases (hdb : db.WellFormed) (run : DispatchRunRef)
    (failureClass : Text) :
    countDispatchRetryAttemptRun run failureClass db = (none, db) ∨
      ∃ r db' n, db.getDispatch run.id = some r ∧ run.current r = true ∧
      r.retryCountedGen ≠ some run.runGen ∧
        countDispatchRetryAttemptRun run failureClass db = (some n, db') ∧
        Changes db db' r (r.counted run.runGen failureClass) := by
  unfold countDispatchRetryAttemptRun
  rcases hdb.update_cases run.id (fun r => run.current r && r.retryCountedGen ≠ some run.runGen)
      (AgentDispatch.counted run.runGen failureClass) (fun _ => rfl)
        with ⟨heq, -⟩ | ⟨r, db', hr, hcond, heq, hch⟩
  · rw [heq]
    exact .inl rfl
  · rw [heq]
    rw [Bool.and_eq_true, decide_eq_true_eq] at hcond
    have hget := hch.getDispatch hdb run.id
    rw [if_pos (Db.mem_of_getDispatch hr).2.symm] at hget
    refine .inr ⟨r, db', clampU32 (r.counted run.runGen failureClass).retryAttempt, hr, hcond.1,
      hcond.2, ?_, hch⟩
    dsimp only
    rw [hget]
    rfl

theorem setDispatchNativeSession_cases (hdb : db.WellFormed) (run : DispatchRunRef)
    (native : Text) :
    setDispatchNativeSession run native db = (false, db) ∨
      ∃ r db', db.getDispatch run.id = some r ∧ run.current r = true ∧ r.nativeSessionId = none ∧
        setDispatchNativeSession run native db = (true, db') ∧
        Changes db db' r { r with nativeSessionId := some native } := by
  unfold setDispatchNativeSession
  split_ifs
  · exact .inl rfl
  · rcases hdb.update_cases run.id (fun r => run.current r && r.nativeSessionId.isNone)
        (fun r => { r with nativeSessionId := some native }) (fun _ => rfl) with
      ⟨heq, -⟩ | ⟨r, db', hr, hcond, heq, hch⟩
    · rw [heq]
      exact .inl rfl
    · rw [heq]
      rw [Bool.and_eq_true, Option.isNone_iff_eq_none] at hcond
      exact .inr ⟨r, db', hr, hcond.1, hcond.2, rfl, hch⟩

theorem stampDispatchExit_cases (hdb : db.WellFormed) (run : DispatchRunRef) (code : Option Int)
    (now : Int) :
    (∃ r db', db.getDispatch run.id = some r ∧ run.current r = true ∧ r.exitedAtMs = none ∧
        stampDispatchExit run code now db = (.stamped, db') ∧
        Changes db db' r { r with exitCode := code, exitedAtMs := some now }) ∨
      (∃ r, db.getDispatch run.id = some r ∧ run.current r = true ∧ r.exitedAtMs.isSome = true ∧
        stampDispatchExit run code now db = (.alreadyStamped, db)) ∨
      (stampDispatchExit run code now db = (.missing, db) ∨
        stampDispatchExit run code now db = (.stale, db)) ∧
        ∀ r, db.getDispatch run.id = some r → run.current r = false := by
  unfold stampDispatchExit
  rcases hdb.update_cases run.id (fun r => run.current r && r.exitedAtMs.isNone)
      (fun r => { r with exitCode := code, exitedAtMs := some now }) (fun _ => rfl) with
    ⟨heq, hno⟩ | ⟨r, db', hr, hcond, heq, hch⟩
  · right
    rw [heq]
    dsimp only
    cases hr : db.getDispatch run.id with
    | none => exact .inr ⟨.inl rfl, fun r h => nomatch h⟩
    | some r =>
      dsimp only
      split_ifs with hstamped
      · rw [Bool.and_eq_true] at hstamped
        exact .inl ⟨r, rfl, hstamped.2, hstamped.1, rfl⟩
      · refine .inr ⟨.inr rfl, fun r' hr' => ?_⟩
        cases hr'
        have hno' := hno r hr
        cases hcur : run.current r with
        | false => rfl
        | true =>
          rw [hcur] at hno' hstamped
          cases hex : r.exitedAtMs <;> simp [hex] at hno' hstamped
  · left
    rw [heq]
    rw [Bool.and_eq_true, Option.isNone_iff_eq_none] at hcond
    exact ⟨r, db', hr, hcond.1, hcond.2, rfl, hch⟩

theorem moveStatus_ok (hdb : db.WellFormed) {db' : Db} {id : Int} {expected : AgentDispatchStatus}
    {f : AgentDispatch → AgentDispatch} (h : moveStatus db id expected f = .ok db')
    (hf : ∀ r, (f r).id = r.id) : ∃ r, r.status = expected ∧ Changes db db' r (f r) := by
  unfold moveStatus at h
  rcases hdb.update_cases id (fun r => r.status = expected) f hf with ⟨heq, -⟩
    | ⟨r, db1, hr, hcond, heq, hch⟩
  · rw [heq] at h
    dsimp only at h
    split at h <;> cases h
  · rw [heq] at h
    cases h
    exact ⟨r, of_decide_eq_true hcond, hch⟩

theorem Changes.addAudit {db1 db2 : Db} {r r' : AgentDispatch} (h : Changes db db1 r r')
    {id now : Int}
    {audit : Option Text} (ha : addAudit db1 id now audit = .ok db2) : Changes db db2 r r' := by
  cases audit with
  | none =>
    cases ha
    exact h
  | some t =>
    unfold Dispatch.addAudit at ha
    dsimp only at ha
    cases ht : noteText t with
    | error e =>
      rw [ht] at ha
      cases ha
    | ok t' =>
      rw [ht] at ha
      cases ha
      exact h.addNote id now t'

theorem setDispatchStatusLed_cases (hdb : db.WellFormed) (id : Int)
    (expected target : AgentDispatchStatus)
    (note : Option Text) (proof : Lease.LeadProof) (now : Int) :
    (∃ e, setDispatchStatusLed id expected target note proof now db = (.error e, db)) ∨
      ∃ r db', setStatusTransitionAllowed r.status target = true ∧
        setDispatchStatusLed id expected target note proof now db = (.ok (), db') ∧
        Changes db db' r { r with status := target } := by
  unfold setDispatchStatusLed
  split_ifs with hmissing hillegal
  · exact .inl ⟨_, rfl⟩
  · exact .inl ⟨_, rfl⟩
  · cases optionNote note with
    | error e => exact .inl ⟨e, rfl⟩
    | ok note =>
      dsimp only
      rcases transact_true_cases (setStatusBody id expected target note proof now) db with he
        | ⟨a, db', hbody, heq⟩
      · exact .inl he
      · unfold setStatusBody at hbody
        obtain ⟨audit, -, hbody⟩ := bind_ok hbody
        obtain ⟨db1, hmove, hbody⟩ := bind_ok hbody
        obtain ⟨db2, haudit, hbody⟩ := bind_ok hbody
        cases hbody
        obtain ⟨r, hr, hch⟩ := moveStatus_ok hdb hmove (fun _ => rfl)
        refine .inr ⟨r, _, ?_, heq, (hch.addIfSome id now note).addAudit haudit⟩
        rw [hr]
        simpa using hillegal

theorem setDispatchStatusForcedLed_cases (hdb : db.WellFormed) (id : Int)
    (expected target : AgentDispatchStatus) (reason : Text) (proof : Lease.LeadProof) (now : Int) :
    (∃ e, setDispatchStatusForcedLed id expected target reason proof now db = (.error e, db)) ∨
      ∃ r r' db', r'.status = .done ∧ r'.stage = r.stage ∧ SameScope r r' ∧
        setDispatchStatusForcedLed id expected target reason proof now db = (.ok (), db') ∧
        Changes db db' r r' := by
  unfold setDispatchStatusForcedLed
  split_ifs
  · exact .inl ⟨_, rfl⟩
  · exact .inl ⟨_, rfl⟩
  · exact .inl ⟨_, rfl⟩
  · cases noteText reason with
    | error e => exact .inl ⟨_, rfl⟩
    | ok reason =>
      dsimp only
      split_ifs
      · exact .inl ⟨_, rfl⟩
      · rcases transact_true_cases (forcedBody id expected reason proof now) db with he
          | ⟨a, db', hbody, heq⟩
        · exact .inl he
        · unfold forcedBody at hbody
          obtain ⟨audit, -, hbody⟩ := bind_ok hbody
          obtain ⟨db1, hmove, hbody⟩ := bind_ok hbody
          obtain ⟨db2, haudit, hbody⟩ := bind_ok hbody
          cases hbody
          obtain ⟨r, -, hch⟩ := moveStatus_ok hdb hmove (fun _ => rfl)
          exact .inr ⟨r, { r with
            status := .done, override := some ⟨"force_done".toList, reason, now⟩ }, _, rfl, rfl,
            ⟨rfl, rfl, rfl, rfl⟩, heq, (hch.addNote id now _).addAudit haudit⟩

end Thegn.Dispatch
