import Thegn.Dispatch.Roster
import Thegn.Pipeline.Scope
import Thegn.Resume.Prompt

set_option autoImplicit false

/-! # Claiming a slot

A claim reads the roster, asks the scope gate (`pipeline_chunk.rs`) and the slot policy
(`pipeline_claim.rs`), and inserts the row, all in one transaction (`db_dispatch.rs`). A resumption
first closes the row it takes over and gives its scope to the new row.
-/

namespace Thegn.Dispatch

open Text Pipeline List

/-! ## The slot policy -/

structure ClaimRequest where
  issueId : Text
  stage : Text
  worktreePath : Text
  artifactPath : Option Text
  chunkPath : Option Text

inductive ClaimDecision
  | grant
  | duplicateOf (id : Int) (exited : Bool)
  | atCapacity (occupied limit stale : Nat)
  deriving DecidableEq

def ClaimDecision.granted : ClaimDecision → Bool
  | .grant => true
  | _ => false

theorem ClaimDecision.eq_grant {d : ClaimDecision} (h : d.granted = true) : d = .grant := by
  cases d with
  | grant => rfl
  | duplicateOf => cases h
  | atCapacity => cases h

def occupies (row : AgentDispatch) : Bool := row.status.isActive

def hasExited (row : AgentDispatch) : Bool := row.exitCode.isSome || row.exitedAtMs.isSome

/-- A value that is there and not blank, trimmed. -/
def norm (value : Option Text) : Option Text := (value.map trim).filter (· ≠ [])

def sameWork (row : AgentDispatch) (req : ClaimRequest) : Bool :=
  let sameAssignment : Bool :=
    match norm row.artifactPath, norm req.artifactPath with
    | some rowArtifact, some requestArtifact => rowArtifact = requestArtifact
    | _, _ => norm row.chunkPath = norm req.chunkPath
  sameIssue row.issueId req.issueId && row.stage.map trim = some (trim req.stage)
    && row.worktreePath = req.worktreePath && sameAssignment

/-- The row is of the stage, up to blanks around its name. -/
def inStage (stage : Text) (row : AgentDispatch) : Bool := row.stage.map trim = some (trim stage)

def decideAllowingDuplicate (rows : List AgentDispatch) (req : ClaimRequest) (limit : Nat)
    (allowDuplicate : Bool) : ClaimDecision :=
  match (if allowDuplicate then none else rows.find? fun r => occupies r && sameWork r req) with
  | some dup => .duplicateOf dup.id (hasExited dup)
  | none =>
    let occupants := rows.filter fun r => occupies r && inStage req.stage r
    if limit ≤ occupants.length then .atCapacity occupants.length limit
      (occupants.filter hasExited).length
    else .grant

def decideClaim (rows : List AgentDispatch) (req : ClaimRequest) (limit : Nat) : ClaimDecision :=
  decideAllowingDuplicate rows req limit false

/-! ## Stored scopes -/

def encodeChunkScope (files : List Text) : Text :=
  (Json.obj [("files".toList, .arr (files.map .str)), ("v".toList, .int 1)]).render
    Resume.escapeChar

def Json.field (name : Text) : Json → Option Json
  | .obj fields => (fields.reverse.find? fun f => f.1 = name).map (·.2)
  | _ => none

def decodeFiles : List Json → Except ScopeDecodeError (List Text)
  | [] => .ok []
  | .str s :: rest => (decodeFiles rest).map (s :: ·)
  | _ :: _ => .error .nonStringFile

def decodeChunkScope (raw : Text) : Except ScopeDecodeError (List Text) :=
  match Json.parse raw with
  | none => .error .json
  | some value =>
    match Json.field "v".toList value with
    | some (.int 1) =>
      match Json.field "files".toList value with
      | some (.arr files) => decodeFiles files
      | _ => .error .noFiles
    | _ => .error .unsupportedVersion

/-! ## The scope gate -/

structure AfterCandidate where
  row : Int
  path : Text
  status : AgentDispatchStatus
  deriving DecidableEq

/-- The candidates with this chunk name. -/
def attemptsOf (candidates : List AfterCandidate) (name : Text) : List AfterCandidate :=
  candidates.filter fun c => fileStem c.path = some name && name ≠ []

/-- The newest attempt, by row. -/
def newestAttempt (attempts : List AfterCandidate) : Option AfterCandidate :=
  attempts.foldl (fun best a =>
    match best with
    | none => some a
    | some b => if b.row ≤ a.row then some a else some b) none

/-- Distinct paths share the name. -/
def ambiguousAttempts (attempts : List AfterCandidate) : Bool :=
  attempts.any fun a => attempts.any fun b => a.path ≠ b.path

/-- The rows and paths of an ambiguous name, in row order. -/
def ambiguousRows (attempts : List AfterCandidate) : Option (List (Int × Text)) :=
  if ambiguousAttempts attempts
    then some (Rows.sortOn (·.1) (attempts.map fun a => (a.row, a.path))) else none

/-- The row and status that decide for an unambiguous name. -/
def governingAttempt (attempts : List AfterCandidate) : Option (Int × AgentDispatchStatus) :=
  if ambiguousAttempts attempts then none else (newestAttempt attempts).map fun a =>
    (a.row, a.status)

def isFinished (status : AgentDispatchStatus) : Bool := status = .done || status = .merged

/-- The chunk name is done. -/
def chunkDone (candidates : List AfterCandidate) (name : Text) : Bool :=
  (governingAttempt (attemptsOf candidates name)).any fun g => isFinished g.2

/-- The names that are done, of `after_index`. -/
def doneNames (candidates : List AfterCandidate) : Finset Text :=
  ((candidates.filterMap fun c => fileStem c.path).filter fun name =>
    chunkDone candidates name).toFinset

structure PreparedChunkAdmission where
  path : Text
  scope : ChunkScope
  deriving DecidableEq

/-- Why the gate stops before it compares scopes. -/
inductive GateStop
  | refused (reason : Text)
  | failed (e : DispatchError)
  deriving DecidableEq

structure Siblings where
  active : List ActiveScope
  after : List AfterCandidate
  deriving DecidableEq

/-- The row is of the same issue and worktree and has a chunk path, which is returned. -/
def siblingPath (new : NewDispatch) (row : AgentDispatch) : Option Text :=
  if sameIssue row.issueId new.issueId && row.worktreePath = new.worktreePath then
    row.chunkPath.filter fun p => trim p ≠ []
  else none

def chunkName (path : Text) : Text := (fileStem (trim path)).getD []

def noSnapshotReason (row : Int) (path : Text) : Text :=
  "active sibling row ".toList ++ idText row ++ " (".toList ++ trim path
    ++ ") has no admitted scope snapshot, so its ownership is unknown; close it with ".toList
    ++ "`thegn dispatch set-status ".toList ++ idText row
    ++ " abandoned` (or `failed`), or override with `thegn dispatch claim … ".toList
    ++ "--allow-scope-overlap <REASON>` / `thegn dispatch put … ".toList
    ++ "--force --force-reason <REASON>`".toList

/-- The loop over the rows: the scopes of the active siblings and the candidates for `after`. -/
def collectSiblings (new : NewDispatch) : List AgentDispatch → Except GateStop Siblings
  | [] => .ok ⟨[], []⟩
  | row :: rows =>
    match siblingPath new row with
    | none => collectSiblings new rows
    | some path => do
        let candidates := if row.stage = new.stage then [⟨row.id, path, row.status⟩] else []
        if row.status.isActive then
          match row.chunkScope with
          | none => throw (.refused (noSnapshotReason row.id path))
          | some raw =>
            match decodeChunkScope raw with
            | .error e => throw (.failed (.corruptScope row.id e))
            | .ok files =>
              let rest ← collectSiblings new rows
              pure ⟨⟨row.id, chunkName path, files⟩ :: rest.active, candidates ++ rest.after⟩
        else
          let rest ← collectSiblings new rows
          pure { rest with after := candidates ++ rest.after }

def matchErrorText : MatchError → Text
  | .overBudget => "OverBudget".toList
  | .unsupportedPattern => "UnsupportedPattern".toList

def conflictReasons (path : Text) (active : List ActiveScope)
    (overlaps : List (Nat × List (Text × Text))) : List Text :=
  overlaps.flatMap fun o =>
    match active[o.1]? with
    | some sibling => o.2.map fun pair =>
      path ++ " vs ".toList ++ sibling.name ++ ": ".toList ++ pair.1 ++
        " collides with ".toList ++ pair.2
        ++ " (active row ".toList ++ idText sibling.row ++ "; admitted scope snapshot)".toList
    | none => []

def verdictReasons (path : Text) (active : List ActiveScope) : ScopeVerdict → List Text
  | .conflict overlaps => conflictReasons path active overlaps
  | .unknown e =>
    ["chunk scope overlap could not be proven within budget: ".toList ++ matchErrorText e]
  | _ => []

def afterReason (stage : Option Text) (candidates : List AfterCandidate) (name : Text) : Text :=
  let attempts := attemptsOf candidates name
  match ambiguousRows attempts with
  | some rows =>
    "after ".toList ++ name ++ " is ambiguous: rows ".toList
      ++ join ", ".toList (rows.map fun r => idText r.1 ++ " (".toList ++ r.2 ++ ")".toList)
      ++ " share that chunk name in stage ".toList ++ stage.getD []
  | none =>
    match governingAttempt attempts with
    | some (row, status) =>
      "after ".toList ++ name ++ " is not done (row ".toList ++ idText row ++ ": ".toList ++
        status.asStr ++ ")".toList
    | none =>
      "after ".toList ++ name ++ " is not done (no ".toList ++ stage.getD [] ++
        " dispatch row for it)".toList

def gateReasons (new : NewDispatch) (prepared : PreparedChunkAdmission) (siblings : Siblings) :
    List Text :=
  let done := doneNames siblings.after
  verdictReasons prepared.path siblings.active (verdict prepared.scope siblings.active done)
    ++ (afterUnmet prepared.scope.after done).map (afterReason new.stage siblings.after)

def scopeGate (new : NewDispatch) (prepared : PreparedChunkAdmission) (rows : List AgentDispatch) :
    Except GateStop Unit := do
  let siblings ← collectSiblings new rows
  let reasons := gateReasons new prepared siblings
  if reasons ≠ [] then
    throw (.refused ("chunk scope gate refused ".toList ++ prepared.path ++ ":\n  - ".toList
      ++ join "\n  - ".toList reasons))

/-- The gate of a claim: only a claim with a chunk passes it, and an override skips its
comparison. -/
def chunkGate (new : NewDispatch) (prepared : Option PreparedChunkAdmission) (overridden : Bool)
    (rows : List AgentDispatch) : Except GateStop Unit :=
  match new.chunkPath with
  | none => .ok ()
  | some path =>
    match prepared with
    | none => .error (.refused "chunk scope was not prepared before admission".toList)
    | some p =>
      if p.path ≠ path
        then .error (.refused "prepared chunk scope does not match the claimed chunk path".toList)
      else if overridden then .ok ()
      else scopeGate new p rows

/-! ## Claims -/

inductive DispatchAdmissionDecision
  | claim (d : ClaimDecision)
  | scopeRefused (reason : Text)
  deriving DecidableEq

/-- All rows, as the admission orders them: the newest first. -/
def rosterRows (db : Db) : List AgentDispatch :=
  (Rows.sortOn (fun r => toLex (r.dispatchedAtMs, r.id)) db.rows).reverse

def admissionRows (db : Db) (issueId worktreePath : Text) : List AgentDispatch :=
  (rosterRows db).filter fun r => r.status.isActive ||
    (r.issueId = issueId && r.worktreePath = worktreePath)

def NewDispatch.request (new : NewDispatch) : ClaimRequest where
  issueId := new.issueId
  stage := new.stage.getD []
  worktreePath := new.worktreePath
  artifactPath := new.artifactPath
  chunkPath := new.chunkPath

/-- The decision of a claim on the rows it is given; nothing when it is granted. -/
def admission (new : NewDispatch) (limit : Nat) (allowDuplicate : Bool)
    (prepared : Option PreparedChunkAdmission)
    (overridden : Bool) (rows : List AgentDispatch) :
    Except DispatchError (Option DispatchAdmissionDecision) :=
  match chunkGate new prepared overridden rows with
  | .error (.failed e) => .error e
  | .error (.refused reason) => .ok (some (.scopeRefused reason))
  | .ok _ =>
    let decision := decideAllowingDuplicate rows new.request limit allowDuplicate
    if decision.granted then .ok none else .ok (some (.claim decision))

/-- The columns and the audit note that every admitted row gets. -/
def stampAdmitted (db : Db) (id : Int) (new : NewDispatch) (proof : Lease.LeadProof)
    (audit : Option Text) (now : Int) :
    Except DispatchError Db := do
  let db := match proofLease proof with
    | some name => (db.update id (fun _ => true) fun r => { r with leadLease := some name }).1
    | none => db
  let db ← match audit with
    | some audit => do
        let audit ← (noteText audit).mapError .note
        appendDispatchNote db id now audit
    | none => pure db
  match new.stage, new.artifactPath with
  | some stage, none =>
    pure (db.update id (fun _ => true) fun r =>
      { r with artifactPath := some (artifactPath new.issueId stage id) }).1
  | _, _ => pure db

/-- The insertion of an admitted row, with the scope it is admitted with. -/
def admitRow (db : Db) (new : NewDispatch) (proof : Lease.LeadProof) (audit scope : Option Text)
    (now : Int) :
    Except DispatchError (Int × Db) := do
  let (id, db) ← putAgentDispatch db new now
  let db ← stampAdmitted db id new proof audit now
  let db := match scope with
    | some snapshot =>
      (db.update id (fun _ => true) fun r => { r with chunkScope := some snapshot }).1
    | none => db
  pure (id, db)

def noteIfSome (db : Db) (id now : Int) (lead : Text) (why : Option Text) :
    Except DispatchError Db :=
  match why with
  | some why => appendDispatchNote db id now (lead ++ why)
  | none => .ok db

structure ClaimArgs where
  new : NewDispatch
  limit : Nat
  allowDuplicate : Option Text
  prepared : Option PreparedChunkAdmission
  allowScope : Option Text
  proof : Lease.LeadProof

def checkParent (db : Db) (parent : Option Int) (childIssue : Text) : Except DispatchError Unit :=
  match parent with
  | some parent => validateParentEdge db parent childIssue
  | none => .ok ()

/-- The transaction of a claim; the overrides are trimmed. -/
def claimBody (a : ClaimArgs) (allowDuplicate allowScope : Option Text) (now : Int) (db : Db) :
    Except DispatchError (Except DispatchAdmissionDecision Int × Db) := do
  let audit ← leadCheck db (activeBoundLeases db a.new.issueId) a.proof now
  let rows := admissionRows db a.new.issueId a.new.worktreePath
  checkParent db a.new.parentId a.new.issueId
  match ← admission a.new a.limit allowDuplicate.isSome a.prepared allowScope.isSome rows with
  | some refusal => pure (.error refusal, db)
  | none => do
      let scope := a.prepared.map fun p => encodeChunkScope p.scope.files
      let (id, db) ← admitRow db a.new a.proof audit scope now
      let db ← noteIfSome db id now "duplicate dispatch explicitly authorized: ".toList
        allowDuplicate
      let db ← noteIfSome db id now "chunk scope override explicitly authorized: ".toList allowScope
      pure (.ok id, db)

def claimDispatchAdmittedLed (a : ClaimArgs) (now : Int) (db : Db) :
    Except DispatchError (Except DispatchAdmissionDecision Int) × Db :=
  let allowDuplicate := a.allowDuplicate.map trim
  let allowScope := a.allowScope.map trim
  if allowDuplicate = some [] then
    (.error (.message "--allow-duplicate requires a non-empty reason".toList), db)
  else if allowScope = some [] then
    (.error (.message "--force requires a non-empty reason when used with --chunk".toList), db)
  else if allowScope.isSome && a.new.chunkPath.isNone then
    (.error (.message "a scope override requires --chunk".toList), db)
  else transact Except.isOk (claimBody a allowDuplicate allowScope now) db

/-! ## Resumptions -/

structure ResumeArgs where
  sourceId : Int
  expected : AgentDispatchStatus
  new : NewDispatch
  limit : Nat
  proof : Lease.LeadProof

/-- An active source is closed as failed, with a note. -/
def closeSource (db : Db) (source : AgentDispatch) (expected : AgentDispatchStatus) (now : Int) :
    Except DispatchError Db :=
  if source.status.isActive then
    let (db, changed) :=
      db.update source.id (fun r => r.status = source.status) fun r => { r with status := .failed }
    if changed then appendDispatchNote db source.id now
      "superseded by a --resume-work finisher dispatch".toList
    else .error (.sourceUpdateLost source.id expected)
  else .ok db

def resumeBody (a : ResumeArgs) (now : Int) (db : Db) :
    Except DispatchError (Except ClaimDecision Int × Db) := do
  match db.getDispatch a.sourceId with
  | none => throw (.disappeared a.sourceId)
  | some source =>
    let bound := activeBoundLeases db a.new.issueId
    let bound := match source.leadLease with
      | some lease => if lease ∈ bound then bound else bound ++ [lease]
      | none => bound
    let audit ← leadCheck db bound a.proof now
    if source.status ≠ a.expected then
      throw (.sourceStatusChanged a.sourceId a.expected source.status)
    checkParent db (a.new.parentId.filter (· ≠ a.sourceId)) a.new.issueId
    let db ← closeSource db source a.expected now
    let decision :=
      decideClaim (admissionRows db a.new.issueId a.new.worktreePath) a.new.request a.limit
    if decision.granted then
      let (finisher, db) ← admitRow db a.new a.proof audit source.chunkScope now
      pure (.ok finisher, db)
    else pure (.error decision, db)

def claimResumeDispatchLed (a : ResumeArgs) (now : Int) (db : Db) :
    Except DispatchError (Except ClaimDecision Int) × Db :=
  transact Except.isOk (resumeBody a now) db

/-! ## What a claim does -/

/-- The row `x` is new in the roster, and no other row changed. -/
structure Appends (db db' : Db) (x : AgentDispatch) : Prop where
  rows : db'.rows = db.rows ++ [x]
  newId : x.id = db.lastId + 1
  lastId : db'.lastId = x.id
  leases : db'.leases = db.leases

variable {db db' db'' : Db} {x : AgentDispatch}

theorem Appends.wellFormed (h : Appends db db' x) (hdb : db.WellFormed) : db'.WellFormed := by
  have hlt : ∀ r ∈ db.rows, r.id < x.id := by
    intro r hr
    have hle := hdb.le_last r hr
    rw [h.newId]
    omega
  refine ⟨?_, fun r hr => ?_⟩
  · rw [h.rows, map_append]
    refine hdb.nodup.append (nodup_singleton _) (disjoint_singleton.mpr fun hmem => ?_)
    obtain ⟨r, hr, heq⟩ := mem_map.mp hmem
    exact absurd heq (hlt r hr).ne
  · rw [h.lastId]
    rw [h.rows] at hr
    rcases mem_append.mp hr with hr | hr
    · exact (hlt r hr).le
    · rw [mem_singleton.mp hr]

/-- A change of the new row only. -/
theorem Appends.update (h : Appends db db' x) (hdb : db.WellFormed)
    (f : AgentDispatch → AgentDispatch)
    (hf : (f x).id = x.id) : Appends db (db'.update x.id (fun _ => true) f).1 (f x) := by
  refine ⟨?_, hf.trans h.newId, h.lastId.trans hf.symm, h.leases⟩
  have hold : (db.rows.map fun r => if (decide (r.id = x.id) && true) = true then f r else r) =
    db.rows := by
    calc (db.rows.map fun r => if (decide (r.id = x.id) && true) = true then f r else r)
        = db.rows.map fun r => r := by
          refine map_congr_left (fun r hr => ?_)
          have hle := hdb.le_last r hr
          rw [if_neg]
          rw [Bool.and_true, decide_eq_true_eq, h.newId]
          omega
      _ = db.rows := map_id' _
  change (db'.rows.map fun r => if (decide (r.id = x.id) && true) = true then f r else r) =
    db.rows ++ [f x]
  rw [h.rows, map_append, hold]
  simp

/-- The notes alone differ. -/
def NotesOnly (db db' : Db) : Prop :=
  db'.rows = db.rows ∧ db'.lastId = db.lastId ∧ db'.leases = db.leases

theorem Appends.notes (h : Appends db db' x) (hn : NotesOnly db' db'') : Appends db db'' x :=
  ⟨hn.1.trans h.rows, h.newId, hn.2.1.trans h.lastId, hn.2.2.trans h.leases⟩

theorem appendDispatchNote_ok {id now : Int} {text : Text}
    (h : appendDispatchNote db id now text = .ok db') : NotesOnly db db' := by
  unfold appendDispatchNote at h
  cases htext : noteText text with
  | error e =>
    rw [htext] at h
    cases h
  | ok t =>
    rw [htext] at h
    simp only [Except.mapError, bind, Except.bind, pure, Except.pure] at h
    split_ifs at h
    cases h
    exact ⟨rfl, rfl, rfl⟩

theorem noteIfSome_ok {id now : Int} {lead : Text} {why : Option Text}
    (h : noteIfSome db id now lead why = .ok db') : NotesOnly db db' := by
  cases why with
  | none =>
    cases h
    exact ⟨rfl, rfl, rfl⟩
  | some w => exact appendDispatchNote_ok h

theorem putAgentDispatch_ok {new : NewDispatch} {now id : Int}
    (h : putAgentDispatch db new now = .ok (id, db')) :
    id = (new.row (db.lastId + 1) now).id ∧ Appends db db' (new.row (db.lastId + 1) now) := by
  unfold putAgentDispatch at h
  cases htexts : checkTexts new.texts with
  | error e =>
    rw [htexts] at h
    cases h
  | ok u =>
    rw [htexts] at h
    simp only [bind, Except.bind, pure, Except.pure] at h
    split_ifs at h
    cases h
    exact ⟨rfl, rfl, rfl, rfl, rfl⟩

/-- The columns of an admitted row that the request determines. -/
structure Admitted (new : NewDispatch) (x : AgentDispatch) : Prop where
  status : x.status = .queued
  stage : x.stage = new.stage
  issueId : x.issueId = new.issueId
  worktreePath : x.worktreePath = new.worktreePath
  chunkPath : x.chunkPath = new.chunkPath

theorem admitted_row (new : NewDispatch) (id now : Int) : Admitted new (new.row id now) :=
  ⟨rfl, rfl, rfl, rfl, rfl⟩

/-- The lease of the proof is stamped on the new row. -/
theorem Appends.stampLease (h : Appends db db' x) (hdb : db.WellFormed) (lease : Option Text)
    {new : NewDispatch} (hx : Admitted new x) :
    ∃ x', Appends db (match lease with
        | some name =>
          (db'.update x.id (fun _ => true) fun r => { r with leadLease := some name }).1
        | none => db') x' ∧ Admitted new x' ∧ x'.chunkScope = x.chunkScope ∧ x'.id = x.id := by
  cases lease with
  | none => exact ⟨x, h, hx, rfl, rfl⟩
  | some name =>
    exact ⟨_, h.update hdb (fun r => { r with leadLease := some name }) rfl,
      ⟨hx.status, hx.stage, hx.issueId, hx.worktreePath, hx.chunkPath⟩, rfl, rfl⟩

theorem Appends.stampArtifact (h : Appends db db' x) (hdb : db.WellFormed) {new : NewDispatch}
    (hx : Admitted new x) (path : Text) :
    ∃ x', Appends db (db'.update x.id (fun _ => true) fun r =>
      { r with artifactPath := some path }).1 x' ∧
      Admitted new x' ∧ x'.chunkScope = x.chunkScope ∧ x'.id = x.id :=
  ⟨_, h.update hdb (fun r => { r with artifactPath := some path }) rfl,
    ⟨hx.status, hx.stage, hx.issueId, hx.worktreePath, hx.chunkPath⟩, rfl, rfl⟩

theorem stampAdmitted_ok (h : Appends db db' x) (hdb : db.WellFormed) {new : NewDispatch}
    (hx : Admitted new x) {proof : Lease.LeadProof} {audit : Option Text} {now : Int}
    (hs : stampAdmitted db' x.id new proof audit now = .ok db'') :
    ∃ x', Appends db db'' x' ∧ Admitted new x' ∧ x'.chunkScope = x.chunkScope ∧ x'.id = x.id := by
  obtain ⟨x1, h1, hx1, hscope1, hid1⟩ := h.stampLease hdb (proofLease proof) hx
  unfold stampAdmitted at hs
  simp only [bind, Except.bind] at hs
  -- the audit note
  generalize hlease : (match proofLease proof with
    | some name => (db'.update x.id (fun _ => true) fun r => { r with leadLease := some name }).1
    | none => db') = db1 at h1 hs
  have haudit : ∃ db2, Appends db db2 x1 ∧ (match new.stage, new.artifactPath with
      | some stage, none => pure (db2.update x.id (fun _ => true) fun r =>
        { r with artifactPath := some (artifactPath new.issueId stage x.id) }).1
      | _, _ => pure db2 : Except DispatchError Db) = .ok db'' := by
    cases audit with
    | none => exact ⟨db1, h1, hs⟩
    | some t =>
      dsimp only at hs
      cases hnote : noteText t with
      | error e =>
        rw [hnote] at hs
        cases hs
      | ok t' =>
        rw [hnote] at hs
        simp only [Except.mapError] at hs
        cases happ : appendDispatchNote db1 x.id now t' with
        | error e =>
          rw [happ] at hs
          cases hs
        | ok db2 =>
          rw [happ] at hs
          exact ⟨db2, h1.notes (appendDispatchNote_ok happ), hs⟩
  obtain ⟨db2, h2, hs2⟩ := haudit
  rw [← hid1] at hs2
  split at hs2
  · cases hs2
    obtain ⟨x2, h3, hx2, hscope2, hid2⟩ := h2.stampArtifact hdb hx1 _
    exact ⟨x2, h3, hx2, hscope2.trans hscope1, hid2.trans hid1⟩
  · cases hs2
    exact ⟨x1, h2, hx1, hscope1, hid1⟩

/-- What an admitted row is inserted as. -/
structure Inserted (db db' : Db) (new : NewDispatch) (scope : Option Text) (id : Int)
    (x : AgentDispatch) : Prop where
  appends : Appends db db' x
  admitted : Admitted new x
  scope : x.chunkScope = scope
  id : id = x.id

theorem admitRow_ok (hdb : db.WellFormed) {new : NewDispatch} {proof : Lease.LeadProof}
    {audit scope : Option Text}
    {now id : Int} (h : admitRow db new proof audit scope now = .ok (id, db')) :
    ∃ x, Inserted db db' new scope id x := by
  unfold admitRow at h
  cases hput : putAgentDispatch db new now with
  | error e =>
    rw [hput] at h
    cases h
  | ok p =>
    obtain ⟨id1, db1⟩ := p
    obtain ⟨rfl, h1⟩ := putAgentDispatch_ok hput
    rw [hput] at h
    simp only [bind, Except.bind, pure, Except.pure] at h
    cases hstamp : stampAdmitted db1 (new.row (db.lastId + 1) now).id new proof audit now with
    | error e =>
      rw [hstamp] at h
      cases h
    | ok db2 =>
      obtain ⟨x, h2, hx, hscope, hid⟩ := stampAdmitted_ok h1 hdb (admitted_row new _ now) hstamp
      rw [hstamp] at h
      cases scope with
      | none =>
        cases h
        exact ⟨x, h2, hx, hscope, hid.symm⟩
      | some raw =>
        cases h
        rw [← hid]
        exact ⟨_, h2.update hdb (fun r => { r with chunkScope := some raw }) rfl,
          ⟨hx.status, hx.stage, hx.issueId, hx.worktreePath, hx.chunkPath⟩, rfl, rfl⟩

theorem claimBody_ok (hdb : db.WellFormed) {a : ClaimArgs} {allowDuplicate allowScope : Option Text}
    {now id : Int} (h : claimBody a allowDuplicate allowScope now db = .ok (.ok id, db')) :
    admission a.new a.limit allowDuplicate.isSome a.prepared allowScope.isSome
        (admissionRows db a.new.issueId a.new.worktreePath) = .ok none ∧
      ∃ x, Inserted db db' a.new (a.prepared.map fun p => encodeChunkScope p.scope.files) id x := by
  unfold claimBody at h
  obtain ⟨audit, -, h⟩ := bind_ok h
  obtain ⟨-, -, h⟩ := bind_ok h
  obtain ⟨decision, hdecision, h⟩ := bind_ok h
  refine ⟨?_, ?_⟩
  · cases decision with
    | some refusal => cases h
    | none => exact hdecision
  · cases decision with
    | some refusal => cases h
    | none =>
      obtain ⟨⟨id1, db1⟩, hadmit, h⟩ := bind_ok h
      obtain ⟨x, hx⟩ := admitRow_ok hdb hadmit
      obtain ⟨db2, hnote1, h⟩ := bind_ok h
      obtain ⟨db3, hnote2, h⟩ := bind_ok h
      cases h
      have happends := (hx.appends.notes (noteIfSome_ok hnote1)).notes (noteIfSome_ok hnote2)
      exact ⟨x, happends, hx.admitted, hx.scope, hx.id⟩

/-- **A claim that is granted** inserts its row, which the gate and the policy admitted. -/
theorem claimDispatchAdmittedLed_ok (hdb : db.WellFormed) {a : ClaimArgs} {now id : Int}
    (h : claimDispatchAdmittedLed a now db = (.ok (.ok id), db')) :
    admission a.new a.limit a.allowDuplicate.isSome a.prepared a.allowScope.isSome
        (admissionRows db a.new.issueId a.new.worktreePath) = .ok none ∧
      ∃ x, Inserted db db' a.new (a.prepared.map fun p => encodeChunkScope p.scope.files) id x := by
  unfold claimDispatchAdmittedLed at h
  dsimp only at h
  split_ifs at h
  · cases h
  · cases h
  · cases h
  · have hbody := claimBody_ok hdb (transact_ok h rfl)
    rwa [Option.isSome_map, Option.isSome_map] at hbody

/-- A claim that is not granted changes nothing. -/
theorem claimDispatchAdmittedLed_refused (a : ClaimArgs) (now : Int) (db : Db) :
    (∃ id db', claimDispatchAdmittedLed a now db = (.ok (.ok id), db')) ∨
      (claimDispatchAdmittedLed a now db).2 = db := by
  unfold claimDispatchAdmittedLed
  dsimp only
  split_ifs
  · exact .inr rfl
  · exact .inr rfl
  · exact .inr rfl
  · exact transact_isOk_cases _ db

/-- What a resumption does to its source. -/
theorem closeSource_ok (hdb : db.WellFormed) {source : AgentDispatch}
    {expected : AgentDispatchStatus} {now : Int}
    (hsource : db.getDispatch source.id = some source)
    (h : closeSource db source expected now = .ok db') :
    (source.status.isActive = true ∧ Changes db db' source { source with status := .failed }) ∨
      (source.status.isActive = false ∧ db' = db) := by
  unfold closeSource at h
  split_ifs at h with hact
  · left
    dsimp only at h
    rcases hdb.update_cases source.id (fun r => r.status = source.status)
      (fun r => { r with status := .failed })
        (fun _ => rfl) with ⟨heq, hno⟩ | ⟨r, db1, hr, -, heq, hch⟩
    · have hfalse := hno source hsource
      rw [decide_eq_true rfl] at hfalse
      cases hfalse
    · rw [hsource] at hr
      cases hr
      rw [heq] at h
      have hn := appendDispatchNote_ok h
      exact ⟨hact, hch.mem, hch.sameId, hn.1.trans hch.rows, hn.2.1.trans hch.lastId,
        hn.2.2.trans hch.leases⟩
  · cases h
    exact .inr ⟨Bool.not_eq_true _ ▸ hact, rfl⟩

/-- **A resumption that is granted** closes its source, if it is active, and inserts its row with
the source's scope. -/
theorem claimResumeDispatchLed_ok (hdb : db.WellFormed) {a : ResumeArgs} {now id : Int}
    (h : claimResumeDispatchLed a now db = (.ok (.ok id), db')) :
    ∃ source db1 x, db.getDispatch a.sourceId = some source ∧
      ((source.status.isActive = true ∧ Changes db db1 source { source with status := .failed }) ∨
        (source.status.isActive = false ∧ db1 = db)) ∧
      decideClaim (admissionRows db1 a.new.issueId a.new.worktreePath) a.new.request
        a.limit = .grant ∧
      Inserted db1 db' a.new source.chunkScope id x := by
  have hbody := transact_ok h rfl
  unfold resumeBody at hbody
  cases hsource : db.getDispatch a.sourceId with
  | none =>
    rw [hsource] at hbody
    cases hbody
  | some source =>
    rw [hsource] at hbody
    dsimp only at hbody
    obtain ⟨audit, -, hbody⟩ := bind_ok hbody
    split_ifs at hbody
    · cases hbody
    · obtain ⟨-, -, hbody⟩ := bind_ok hbody
      obtain ⟨-, -, hbody⟩ := bind_ok hbody
      obtain ⟨db1, hclose, hbody⟩ := bind_ok hbody
      have hid := (Db.mem_of_getDispatch hsource).2
      have hclosed := closeSource_ok hdb (hid.symm ▸ hsource) hclose
      have hdb1 : db1.WellFormed := by
        rcases hclosed with ⟨-, hch⟩ | ⟨-, rfl⟩
        · exact hch.wellFormed hdb
        · exact hdb
      split_ifs at hbody with hgrant
      · obtain ⟨⟨id1, db2⟩, hadmit, hbody⟩ := bind_ok hbody
        cases hbody
        obtain ⟨x, hx⟩ := admitRow_ok hdb1 hadmit
        exact ⟨source, db1, x, rfl, hclosed, ClaimDecision.eq_grant hgrant, hx⟩
      · cases hbody

/-- A resumption that is not granted changes nothing. -/
theorem claimResumeDispatchLed_refused (a : ResumeArgs) (now : Int) (db : Db) :
    (∃ id db', claimResumeDispatchLed a now db = (.ok (.ok id), db')) ∨
    (claimResumeDispatchLed a now db).2 = db :=
  transact_isOk_cases _ db

end Thegn.Dispatch
