import Thegn.Dispatch.Status
import Thegn.Lease.Store
import Thegn.Resume.Sanitize

set_option autoImplicit false

/-! # The roster

The table `agent_dispatches` with its notes, and the statements and checks the operations on it
share (`thegn-core/src/db_dispatch.rs`, `db_notification.rs`, `pipeline_report.rs`). Every writer
stores a status in its own text, which `parse` reads back (`parse_asStr`), so the column is modelled
by the status itself.
-/

namespace Thegn.Dispatch

open Text List

structure DispatchOverride where
  kind : Text
  reason : Text
  atMs : Int
  deriving DecidableEq

/-- A row; the columns that no operation here reads or writes are left out. -/
structure AgentDispatch where
  id : Int
  issueId : Text
  worktreePath : Text
  agentName : Text
  dispatchedAtMs : Int
  status : AgentDispatchStatus
  stage : Option Text
  parentId : Option Int
  sessionId : Option Text
  artifactPath : Option Text
  chunkPath : Option Text
  exitCode : Option Int
  exitedAtMs : Option Int
  note : Option Text
  leadLease : Option Text
  chunkScope : Option Text
  runGen : Int
  nativeSessionId : Option Text
  reportHeadOid : Option Text
  retryAttempt : Int
  retryCountedGen : Option Int
  retryLastClass : Option Text
  override : Option DispatchOverride
  deriving DecidableEq

structure DispatchNote where
  dispatchId : Int
  createdAtMs : Int
  text : Text
  deriving DecidableEq

/-- The rows and notes in the order of insertion, the last id given out, and the leases. -/
structure Db where
  rows : List AgentDispatch
  notes : List DispatchNote
  lastId : Int
  leases : Lease.Db

def Db.empty (leases : Lease.Db) : Db := ⟨[], [], 0, leases⟩

/-- `UPDATE … WHERE id = …` with a further condition, and whether a row was changed. -/
def Db.update (db : Db) (id : Int) (cond : AgentDispatch → Bool)
    (f : AgentDispatch → AgentDispatch) : Db × Bool :=
  ({ db with rows := db.rows.map fun r => if r.id = id && cond r then f r else r },
    db.rows.any fun r => r.id = id && cond r)

def Db.getDispatch (db : Db) (id : Int) : Option AgentDispatch := db.rows.find? fun r => r.id = id

def Db.addNote (db : Db) (id now : Int) (text : Text) : Db :=
  { db with notes := db.notes ++ [⟨id, now, text⟩] }

/-! ## Errors -/

inductive NoteError
  | empty
  | tooLong (len : Nat)
  deriving DecidableEq

inductive ParentEdgeReason
  | missing
  | crossIssue
  | ineligible (status : AgentDispatchStatus)
  deriving DecidableEq

/-- Why a stored scope cannot be read. -/
inductive ScopeDecodeError
  | json
  | unsupportedVersion
  | noFiles
  | nonStringFile
  deriving DecidableEq

inductive DispatchError
  | lead (e : Lease.LeadError)
  | note (e : NoteError)
  | textRejected (field : Text) (format : Bool) (position : Nat)
  | rosterActiveCeiling (active limit : Nat)
  | parent (parentId : Int) (reason : ParentEdgeReason)
  | missing (id : Int)
  | illegal (id : Int) (source target : AgentDispatchStatus)
  | stale (id : Int) (expected actual : AgentDispatchStatus)
  | sourceStatusChanged (sourceId : Int) (expected actual : AgentDispatchStatus)
  | sourceUpdateLost (sourceId : Int) (expected : AgentDispatchStatus)
  | disappeared (id : Int)
  | corruptScope (row : Int) (e : ScopeDecodeError)
  | message (text : Text)
  deriving DecidableEq

/-- An operation in a transaction: an error rolls it back, and so does an answer that `commits` does
not accept. -/
def transact {α : Type} (commits : α → Bool) (body : Db → Except DispatchError (α × Db)) (db : Db) :
    Except DispatchError α × Db :=
  match body db with
  | .ok (a, db') => (.ok a, if commits a then db' else db)
  | .error e => (.error e, db)

theorem bind_ok {ε α β : Type} {m : Except ε α} {k : α → Except ε β} {b : β}
    (h : (m >>= k) = .ok b) : ∃ a, m = .ok a ∧ k a = .ok b := by
  cases m with
  | error e => cases h
  | ok a => exact ⟨a, rfl, h⟩

theorem transact_ok {α : Type} {commits : α → Bool} {body : Db → Except DispatchError (α × Db)}
    {db db' : Db} {a : α}
    (h : transact commits body db = (.ok a, db')) (hc : commits a = true) :
    body db = .ok (a, db') := by
  unfold transact at h
  cases hbody : body db with
  | error e =>
    rw [hbody] at h
    cases h
  | ok p =>
    obtain ⟨b, db1⟩ := p
    rw [hbody] at h
    simp only [Prod.mk.injEq, Except.ok.injEq] at h
    obtain ⟨rfl, rfl⟩ := h
    rw [if_pos hc]

/-- A transaction that does not answer with a success is rolled back. -/
theorem transact_isOk_cases {ε α : Type} (body : Db → Except DispatchError (Except ε α × Db))
    (db : Db) :
    (∃ a db', transact Except.isOk body db = (.ok (.ok a), db')) ∨
    (transact Except.isOk body db).2 = db := by
  unfold transact
  cases body db with
  | error e => exact .inr rfl
  | ok p =>
    obtain ⟨r, db'⟩ := p
    cases r with
    | error e => exact .inr rfl
    | ok a => exact .inl ⟨a, db', rfl⟩

theorem transact_true_cases {α : Type} (body : Db → Except DispatchError (α × Db)) (db : Db) :
    (∃ e, transact (fun _ => true) body db = (.error e, db)) ∨
      ∃ a db', body db = .ok (a, db') ∧ transact (fun _ => true) body db = (.ok a, db') := by
  unfold transact
  cases hbody : body db with
  | error e => exact .inl ⟨e, rfl⟩
  | ok p => exact .inr ⟨p.1, p.2, rfl, rfl⟩

/-! ## Texts -/

def noteMaxChars : Nat := 4096

/-- Hostile characters of a note in visible form. -/
def encodeHostile : Text → Text
  | [] => []
  | '\r' :: rest =>
    if rest = [] || rest.head? = some '\n' then encodeHostile rest else ' ' :: encodeHostile rest
  | c :: rest =>
    (if c = '\n' then ' '
      else if c = '\t' then ' '
      else if isControl c || Resume.isFormatControl c then '\uFFFD'
      else c) :: encodeHostile rest

def noteText (text : Text) : Except NoteError Text :=
  let t := encodeHostile text
  if t.any fun c => !isWhitespace c && c ≠ '\uFFFD' then
    let t := trim t
    if noteMaxChars < t.length then .error (.tooLong t.length) else .ok t
  else .error .empty

/-- The first control or format character of a field. -/
def dispatchTextField (field value : Text) : Except DispatchError Unit :=
  match value.findIdx? fun c => isControl c || Resume.isFormatControl c with
  | some i => .error (.textRejected field (!(value[i]?.any isControl)) i)
  | none => .ok ()

def appendDispatchNote (db : Db) (id now : Int) (text : Text) : Except DispatchError Db := do
  let text ← (noteText text).mapError .note
  if (db.getDispatch id).isNone then
    throw (.message ("roster row ".toList ++ idText id ++ " does not exist".toList))
  pure (db.addNote id now text)

/-! ## Inserting -/

structure NewDispatch where
  issueId : Text
  worktreePath : Text
  agentName : Text
  stage : Option Text
  parentId : Option Int
  sessionId : Option Text
  artifactPath : Option Text
  chunkPath : Option Text
  deriving DecidableEq

def rosterActiveLimit : Nat := 4096

/-- The text fields that are checked, in order. -/
def NewDispatch.texts (new : NewDispatch) : List (Text × Option Text) :=
  [("issue_id".toList, some new.issueId), ("worktree_path".toList, some new.worktreePath),
    ("agent_name".toList, some new.agentName), ("stage".toList, new.stage),
    ("session_id".toList, new.sessionId),
    ("artifact_path".toList, new.artifactPath), ("chunk_path".toList, new.chunkPath)]

def checkTexts : List (Text × Option Text) → Except DispatchError Unit
  | [] => .ok ()
  | (_, none) :: rest => checkTexts rest
  | (field, some value) :: rest => do
      dispatchTextField field value
      checkTexts rest

/-- A new row is queued. -/
def NewDispatch.row (new : NewDispatch) (id now : Int) : AgentDispatch where
  id := id
  issueId := new.issueId
  worktreePath := new.worktreePath
  agentName := new.agentName
  dispatchedAtMs := now
  status := .queued
  stage := new.stage
  parentId := new.parentId
  sessionId := new.sessionId
  artifactPath := new.artifactPath
  chunkPath := new.chunkPath
  exitCode := none
  exitedAtMs := none
  note := none
  leadLease := none
  chunkScope := none
  runGen := 0
  nativeSessionId := none
  reportHeadOid := none
  retryAttempt := 0
  retryCountedGen := none
  retryLastClass := none
  override := none

def putAgentDispatch (db : Db) (new : NewDispatch) (now : Int) :
    Except DispatchError (Int × Db) := do
  checkTexts new.texts
  let active := (db.rows.filter fun r => r.status.isActive).length
  if rosterActiveLimit ≤ active then throw (.rosterActiveCeiling active rosterActiveLimit)
  let id := db.lastId + 1
  pure (id, { db with rows := db.rows ++ [new.row id now], lastId := id })

/-! ## Leases and parents -/

/-- The leases that active rows of the issue are bound to, each once. -/
def activeBoundLeases (db : Db) (issueId : Text) : List Text :=
  db.rows.foldl (fun leases r =>
    match r.leadLease with
    | some lease =>
      if r.status.isActive && sameIssue r.issueId issueId &&
        lease ∉ leases then leases ++ [lease] else leases
    | none => leases) []

def validateParentEdge (db : Db) (parentId : Int) (childIssue : Text) : Except DispatchError Unit :=
  match db.getDispatch parentId with
  | none => .error (.parent parentId .missing)
  | some parent =>
    if issueKey parent.issueId ≠ issueKey childIssue then .error (.parent parentId .crossIssue)
    else if parent.status = .failed || parent.status = .abandoned || parent.status = .unknown then
      .error (.parent parentId (.ineligible parent.status))
    else .ok ()

def leadCheck (db : Db) (bound : List Text) (proof : Lease.LeadProof) (now : Int) :
    Except DispatchError (Option Text) :=
  (Lease.leadCheck db.leases bound proof now).mapError .lead

/-- The lease that a proof presents. -/
def proofLease : Lease.LeadProof → Option Text
  | .lease name _ => some name
  | .fenced name _ _ => some name
  | _ => none

/-! ## What an update does -/

/-- Ids are given out once. -/
structure Db.WellFormed (db : Db) : Prop where
  nodup : (db.rows.map (·.id)).Nodup
  le_last : ∀ r ∈ db.rows, r.id ≤ db.lastId

theorem Db.wellFormed_empty (leases : Lease.Db) : (Db.empty leases).WellFormed :=
  ⟨nodup_nil, fun _ h => absurd h not_mem_nil⟩

theorem Db.mem_of_getDispatch {db : Db} {id : Int} {r : AgentDispatch}
    (h : db.getDispatch id = some r) : r ∈ db.rows ∧ r.id = id := by
  have hid := List.find?_some h
  rw [decide_eq_true_eq] at hid
  exact ⟨mem_of_find?_eq_some h, hid⟩

theorem Db.WellFormed.getDispatch_of_mem {db : Db} (h : db.WellFormed) {r : AgentDispatch}
    (hr : r ∈ db.rows) : db.getDispatch r.id = some r := by
  unfold Db.getDispatch
  cases hfind : db.rows.find? (fun x => x.id = r.id) with
  | none =>
    have hnone := List.find?_eq_none.mp hfind r hr
    exact absurd (decide_eq_true rfl) hnone
  | some r' =>
    have hr' := Db.mem_of_getDispatch hfind
    rw [Rows.eq_of_key h.nodup hr'.1 hr hr'.2]

/-- The row `r` becomes `r'`, and no other row changes. -/
structure Changes (db db' : Db) (r r' : AgentDispatch) : Prop where
  mem : r ∈ db.rows
  sameId : r'.id = r.id
  rows : db'.rows = db.rows.map fun x => if x.id = r.id then r' else x
  lastId : db'.lastId = db.lastId
  leases : db'.leases = db.leases

variable {db db' : Db} {r r' : AgentDispatch}

theorem Changes.addNote (h : Changes db db' r r') (id now : Int) (text : Text) :
    Changes db (db'.addNote id now text) r r' :=
  ⟨h.mem, h.sameId, h.rows, h.lastId, h.leases⟩

theorem Changes.ids (h : Changes db db' r r') : db'.rows.map (·.id) = db.rows.map (·.id) := by
  rw [h.rows, map_map]
  refine map_congr_left (fun x _ => ?_)
  dsimp only [Function.comp_apply]
  split_ifs with hx
  · rw [h.sameId, hx]
  · rfl

theorem Changes.mem_cases (h : Changes db db' r r') {x : AgentDispatch} (hx : x ∈ db'.rows) :
    x = r' ∨ x ∈ db.rows ∧ x.id ≠ r.id := by
  rw [h.rows] at hx
  obtain ⟨y, hy, rfl⟩ := mem_map.mp hx
  split_ifs with hid
  · exact .inl rfl
  · exact .inr ⟨hy, hid⟩

theorem Changes.wellFormed (h : Changes db db' r r') (hdb : db.WellFormed) : db'.WellFormed := by
  refine ⟨by rw [h.ids]; exact hdb.nodup, fun x hx => ?_⟩
  have hmem : x.id ∈ db'.rows.map (·.id) := mem_map_of_mem hx
  rw [h.ids] at hmem
  obtain ⟨y, hy, heq⟩ := mem_map.mp hmem
  rw [← heq, h.lastId]
  exact hdb.le_last y hy

theorem Changes.getDispatch (h : Changes db db' r r') (hdb : db.WellFormed) (k : Int) :
    db'.getDispatch k = if k = r.id then some r' else db.getDispatch k := by
  have hr := hdb.getDispatch_of_mem h.mem
  unfold Db.getDispatch at hr ⊢
  rw [h.rows, List.find?_map]
  have hcomp : ((fun x : AgentDispatch => decide (x.id = k)) ∘ fun x => if x.id = r.id
    then r' else x)
      = fun x => decide (x.id = k) := by
    funext x
    dsimp only [Function.comp_apply]
    split_ifs with hx
    · rw [h.sameId, hx]
    · rfl
  rw [hcomp]
  by_cases hk : k = r.id
  · rw [if_pos hk, hk, hr, Option.map_some, if_pos rfl]
  · rw [if_neg hk]
    cases hfind : db.rows.find? fun x => decide (x.id = k) with
    | none => rfl
    | some x =>
      have hx := List.find?_some hfind
      rw [decide_eq_true_eq] at hx
      rw [Option.map_some, if_neg (by rw [hx]; exact hk)]

/-- **An update changes nothing, or the one row with this id.** -/
theorem Db.WellFormed.update_cases (hdb : db.WellFormed) (id : Int) (cond : AgentDispatch → Bool)
    (f : AgentDispatch → AgentDispatch) (hf : ∀ r, (f r).id = r.id) :
    (db.update id cond f = (db, false) ∧ ∀ r, db.getDispatch id = some r → cond r = false) ∨
      ∃ r db', db.getDispatch id = some r ∧ cond r = true ∧ db.update id cond f = (db', true) ∧
        Changes db db' r (f r) := by
  by_cases hany : (db.update id cond f).2 = true
  · right
    obtain ⟨r, hr, hcond⟩ := any_eq_true.mp hany
    rw [Bool.and_eq_true, decide_eq_true_eq] at hcond
    have hget : db.getDispatch id = some r := hcond.1 ▸ hdb.getDispatch_of_mem hr
    refine ⟨r, (db.update id cond f).1, hget, hcond.2, Prod.ext rfl hany, hr, hf r, ?_, rfl, rfl⟩
    refine map_congr_left (fun x hx => ?_)
    by_cases hid : x.id = id
    · -- the only row with this id
      have heq : x = r := Rows.eq_of_key hdb.nodup hx hr (hid.trans hcond.1.symm)
      rw [heq, hcond.1, hcond.2]
      simp
    · rw [if_neg (by simp [hid]), if_neg (by rw [hcond.1]; exact hid)]
  · left
    have hno : ∀ r ∈ db.rows, (decide (r.id = id) && cond r) = false := by
      intro r hr
      rw [Bool.not_eq_true] at hany
      exact Bool.not_eq_true _ ▸ any_eq_false.mp hany r hr
    refine ⟨Prod.ext ?_ (Bool.not_eq_true _ ▸ hany), fun r hget => ?_⟩
    · have hrows : (db.rows.map fun r => if (decide (r.id = id) && cond r) = true then f r else r) =
        db.rows := by
        calc (db.rows.map fun r => if (decide (r.id = id) && cond r) = true then f r else r)
            = db.rows.map fun r => r := map_congr_left fun r hr => by rw [hno r hr]; simp
          _ = db.rows := map_id' _
      unfold Db.update
      rw [hrows]
    · have hr := Db.mem_of_getDispatch hget
      have hc := hno r hr.1
      rw [decide_eq_true hr.2, Bool.true_and] at hc
      exact hc

end Thegn.Dispatch
