import Thegn.Migration.Plan

set_option autoImplicit false

/-! # Migration in the database

`thegn-core/src/db_session_migration.rs`: the snapshots of a source and of a target, and the
transaction that imports a bundle. A nullable text column is kept as the queries read it, with an
empty text for `NULL`.
-/

namespace Thegn.Migration

open Text Dispatch Rows

/-! ## Tables -/

structure TabGroupRow where
  sessionName : Text
  name : Text
  kind : Text
  worktree : Text
  ordinal : Int
  activeTab : Int
  deriving DecidableEq

structure SessionRow where
  sessionName : Text
  activeTab : Option Text
  pinState : Option Text
  updatedAt : Option Int
  deriving DecidableEq

/-- The tables a migration reads and writes, with the counters of the two that number their rows. -/
structure Db where
  worktrees : List MigrationWorktree
  tabGroups : List TabGroupRow
  groupTabs : List MigrationTab
  uiState : List MigrationUiState
  sessionState : List SessionRow
  dispatches : List MigrationDispatch
  dispatchSeq : Int
  notes : List MigrationNote
  noteSeq : Int
  deriving DecidableEq

def TabGroupRow.key (g : TabGroupRow) : Text × Text := (g.sessionName, g.name)

def MigrationTab.key (t : MigrationTab) : Text × Text × Int :=
  (t.sessionName, t.groupName, t.ordinal)

def MigrationUiState.rowKey (row : MigrationUiState) : Text × Text := (row.scope, row.key)

/-! ## Queries -/

def sessionGroups (db : Db) (session : Text) : List TabGroupRow :=
  sortOn (fun g : TabGroupRow => toLex (g.ordinal, g.name))
    (db.tabGroups.filter fun g => g.sessionName = session)

def sessionTabs (db : Db) (session : Text) : List MigrationTab :=
  sortOn (fun t : MigrationTab => toLex (t.groupName, t.ordinal))
    (db.groupTabs.filter fun t => t.sessionName = session)

def sidebarScope : Text := "sidebar".toList

def sidebarRows (db : Db) : List MigrationUiState :=
  sortOn MigrationUiState.key (db.uiState.filter fun row => row.scope = sidebarScope)

def dispatchesForWorktree (db : Db) (worktree : Text) : List MigrationDispatch :=
  sortOn MigrationDispatch.sourceId (db.dispatches.filter fun d => d.worktreePath = worktree)

def notesForDispatches (db : Db) (ids : List Int) : List MigrationNote :=
  ids.flatMap fun id =>
    sortOn (fun n : MigrationNote => toLex (n.createdAtMs, n.sourceId))
      (db.notes.filter fun n => n.dispatchId = id)

def sessionPin (db : Db) (session : Text) : Option Text × Option Int :=
  match db.sessionState.find? fun row => row.sessionName = session with
  | some row => (row.pinState, row.updatedAt)
  | none => (none, none)

def findWorktree (db : Db) (worktree : Text) : Option MigrationWorktree :=
  db.worktrees.find? fun w => w.worktree = worktree

/-- A group with its tabs; both selections build it so. -/
def withTabs (session : Text) (tabs : List MigrationTab) (g : TabGroupRow) : MigrationGroup :=
  { sessionName := session, name := g.name, kind := g.kind, worktree := g.worktree,
    ordinal := g.ordinal, activeTab := g.activeTab,
    tabs := (tabs.filter fun t => t.groupName = g.name).map fun t =>
      { t with sessionName := session } }

/-! ## Snapshots -/

def sidebarKeyMatches (key kind group : Text) : Bool :=
  match stripPrefix (kind ++ [':']) key with
  | none => false
  | some rest => rest == group || (stripPrefix group rest).any fun tail => tail.head? == some '/'

def sidebarKinds : List Text := ["collapse".toList, "pin".toList, "pin_ordinal".toList]

def selectSidebarState (rows : List MigrationUiState) (groups : List Text) :
    List MigrationUiState :=
  sortOn MigrationUiState.key
    (rows.filter fun row => row.scope = sidebarScope &&
      sidebarKinds.any fun kind => groups.any fun g => sidebarKeyMatches row.key kind g)

def selectGroups (session worktreePath : Text) (groups : List TabGroupRow)
    (tabs : List MigrationTab) : List MigrationGroup :=
  let selected := (groups.filter fun g => g.worktree = worktreePath).map (withTabs session tabs)
  (sortOn MigrationGroup.rank selected).map fun g =>
    { g with tabs := sortOn MigrationTab.ordinal g.tabs }

def migrationSnapshot (db : Db) (sourceProfile targetProfile session worktreePath : Text) :
    MigrationBundle :=
  let groups :=
    selectGroups session worktreePath (sessionGroups db session) (sessionTabs db session)
  let dispatches := dispatchesForWorktree db worktreePath
  makeBundle
    { sourceProfile := sourceProfile
      targetProfile := targetProfile
      sessionName := session
      worktreePath := worktreePath
      worktree := findWorktree db worktreePath
      groups := groups
      uiState := selectSidebarState (sidebarRows db) (groups.map MigrationGroup.name)
      dispatches := dispatches
      notes := notesForDispatches db (dispatches.map MigrationDispatch.sourceId)
      pinState := (sessionPin db session).1
      pinUpdatedAt := (sessionPin db session).2 }

def migrationTargetSnapshot (db : Db) (session worktreePath : Text) : MigrationTarget :=
  let dispatches := dispatchesForWorktree db worktreePath
  { worktree := findWorktree db worktreePath
    groups := (sessionGroups db session).map (withTabs session (sessionTabs db session))
    uiState := sidebarRows db
    dispatches := dispatches
    notes := notesForDispatches db (dispatches.map MigrationDispatch.sourceId)
    pinState := (sessionPin db session).1
    pinUpdatedAt := (sessionPin db session).2 }

/-! ## Inserting rows -/

/-- A `BTreeMap<i64, i64>`, its entries in ascending order. -/
def insertId (k v : Int) : List (Int × Int) → List (Int × Int)
  | [] => [(k, v)]
  | (k', v') :: m =>
    if k < k' then (k, v) :: (k', v') :: m
    else if k = k' then (k, v) :: m
    else (k', v') :: insertId k v m

def lookupId (m : List (Int × Int)) (k : Int) : Option Int :=
  (m.find? fun e => e.1 = k).map Prod.snd

def insertWorktree (db : Db) (w : MigrationWorktree) : Db :=
  { db with worktrees := insertIgnore MigrationWorktree.worktree db.worktrees w }

def persistedGroup (g : MigrationGroup) : TabGroupRow :=
  { sessionName := g.sessionName, name := g.name, kind := g.kind, worktree := g.worktree,
    ordinal := g.ordinal, activeTab := g.activeTab }

/-- The session ids of its panes are not stored. -/
def persistedTab (t : MigrationTab) : MigrationTab := { t with paneSessions := [] }

def insertTab (db : Db) (t : MigrationTab) : Db :=
  { db with groupTabs := insertIgnore MigrationTab.key db.groupTabs (persistedTab t) }

def insertGroup (db : Db) (g : MigrationGroup) : Db :=
  g.tabs.foldl insertTab
    { db with tabGroups := insertIgnore TabGroupRow.key db.tabGroups (persistedGroup g) }

def setPin (db : Db) (session : Text) (pin : Text) (updatedAt : Option Int) : Db :=
  { db with
    sessionState :=
      if db.sessionState.any fun row => row.sessionName = session then
        db.sessionState.map fun row =>
          if row.sessionName = session then { row with pinState := some pin } else row
      else
        db.sessionState ++
          [{ sessionName := session, activeTab := none, pinState := some pin,
             updatedAt := updatedAt }] }

/-- A row is stored without its parent under the next number. -/
def insertDispatch (st : Db × List (Int × Int)) (p : MigrationDispatch × MigrationDispatch) :
    Db × List (Int × Int) :=
  let id := st.1.dispatchSeq + 1
  ({ st.1 with
      dispatches := st.1.dispatches ++
        [{ p.2 with
            sourceId := id, issueId := p.1.issueId, worktreePath := p.1.worktreePath,
            agentName := p.1.agentName, dispatchedAtMs := p.1.dispatchedAtMs, parentId := none,
            sessionId := none }]
      dispatchSeq := id },
    insertId p.1.sourceId id st.2)

def setParent (ids : List (Int × Int)) (rows : List MigrationDispatch) (d : MigrationDispatch) :
    List MigrationDispatch :=
  match lookupId ids d.sourceId with
  | none => rows
  | some target =>
    rows.map fun row =>
      if row.sourceId = target then
        { row with parentId := d.parentId.bind (lookupId ids), sessionId := none }
      else row

def insertNote (ids : List (Int × Int)) (db : Db) (n : MigrationNote) : Db :=
  match lookupId ids n.dispatchId with
  | none => db
  | some dispatchId =>
    { db with
      notes := db.notes ++
        [{ sourceId := db.noteSeq + 1, dispatchId := dispatchId, createdAtMs := n.createdAtMs,
           text := n.text }]
      noteSeq := db.noteSeq + 1 }

/-! ## The transaction -/

structure MigrationImportResult where
  dispatchIdMap : List (Int × Int)
  fingerprint : Text
  deriving DecidableEq

/-- What an import writes that is not a resumed one. -/
def importRows (codec : CwdCodec) (db : Db) (bundle : MigrationBundle) (history : HistoryPolicy) :
    Db × List (Int × Int) :=
  let imported := importedBundle codec bundle history
  let db := (bundle.worktree.map (insertWorktree db)).getD db
  let db := imported.groups.foldl insertGroup db
  let db := { db with uiState := insertAll MigrationUiState.rowKey db.uiState bundle.uiState }
  let db :=
    (bundle.pinState.map fun pin => setPin db bundle.sessionName pin bundle.pinUpdatedAt).getD db
  let (db, ids) := (bundle.dispatches.zip imported.dispatches).foldl insertDispatch (db, [])
  let db := { db with dispatches := bundle.dispatches.foldl (setParent ids) db.dispatches }
  (imported.notes.foldl (insertNote ids) db, ids)

/-- A failed body leaves the database as it was. -/
def transaction {ε α : Type} (db : Db) (body : Except ε (α × Db)) : Except ε α × Db :=
  match body with
  | .ok (a, db') => (.ok a, db')
  | .error e => (.error e, db)

section Digest

variable (codec : CwdCodec) (digest : Text → Text)

def confirmMigration (db : Db) (plan : MigrationPlan) : Bool :=
  let target := migrationTargetSnapshot db plan.bundle.sessionName plan.bundle.worktreePath
  fingerprint digest (targetSubset plan.bundle target) == plan.fingerprint

/-- Plan again in the transaction, and import what is not there. -/
def importBody (db : Db) (plan : MigrationPlan) :
    Except MigrationConflict (MigrationImportResult × Db) := do
  let bundle := plan.bundle
  let target := migrationTargetSnapshot db bundle.sessionName bundle.worktreePath
  let current ← planMigration codec digest bundle target plan.history
  let worktreeReady := bundle.worktree.isNone || current.target.worktree.isSome
  if current.resumed then
    let db := if worktreeReady then db else (bundle.worktree.map (insertWorktree db)).getD db
    let ids := (bundle.dispatches.zip current.target.dispatches).foldl
      (fun m p => insertId p.1.sourceId p.2.sourceId m) []
    .ok ({ dispatchIdMap := ids, fingerprint := plan.fingerprint }, db)
  else if worktreeReady && confirmMigration digest db current then
    .ok ({ dispatchIdMap := [], fingerprint := plan.fingerprint }, db)
  else
    let (db, ids) := importRows codec db bundle plan.history
    .ok ({ dispatchIdMap := ids, fingerprint := plan.fingerprint }, db)

def importMigration (db : Db) (plan : MigrationPlan) :
    Except MigrationConflict MigrationImportResult × Db :=
  transaction db (importBody codec digest db plan)

end Digest

end Thegn.Migration
