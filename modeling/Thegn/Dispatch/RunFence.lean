import Thegn.Dispatch.Writers

set_option autoImplicit false

/-! # Runs of a row are fenced from each other

Three operations publish a new run of a row, and six writers name the run they mean. They are called
in any order, with runs observed at any time. The log notes what happened to the runs and is ghost
state.
-/

namespace Thegn.Dispatch

open Text List

inductive RunMark
  | observed (run : DispatchRunRef)
  | published (id gen : Int)
  /-- An exit of the run was reported, and the run was the row's; the stamp, if it made one, is
  noted before. -/
  | reported (id gen : Int) (exitCode : Option Int)
  | stamped (id gen : Int) (exitCode : Option Int)
  | counted (id gen : Int)
  | native (id gen : Int)
  deriving DecidableEq

/-- The database and the log, the last mark first. -/
structure RunState where
  db : Db
  log : List RunMark

inductive RunEvent
  | publish (id : Int) (sessionId artifactPath : Text)
  | retry (id : Int) (expected : AgentDispatchStatus) (sessionId artifactPath : Text)
  | bind (id : Int) (sessionId : Text)
  | observe (id : Int)
  | stampExit (run : DispatchRunRef) (exitCode : Option Int) (now : Int)
  | setStatus (run : DispatchRunRef) (expected status : AgentDispatchStatus) (note : Option Text)
      (now : Int)
  | park (run : DispatchRunRef) (expected : AgentDispatchStatus) (note : Text)
  | settle (run : DispatchRunRef) (expected : AgentDispatchStatus) (note : Text)
  | count (run : DispatchRunRef) (failureClass : Text)
  | setNative (run : DispatchRunRef) (nativeSessionId : Text)
  deriving DecidableEq

/-- The run that a writer means. -/
def RunEvent.run : RunEvent → Option DispatchRunRef
  | .stampExit run _ _ => some run
  | .setStatus run _ _ _ _ => some run
  | .park run _ _ => some run
  | .settle run _ _ => some run
  | .count run _ => some run
  | .setNative run _ => some run
  | _ => none

/-- The mark of a publication. -/
def publishedMarks (db : Db) (id : Int) (changed : Bool) : List RunMark :=
  if changed then (db.getDispatch id).toList.map fun r => .published id r.runGen else []

def runEffect (s : RunState) : RunEvent → Db × List RunMark
  | .publish id sessionId artifactPath =>
    let (outcome, db) := publishDispatchRun id sessionId artifactPath s.db
    (db, publishedMarks db id (outcome = .published))
  | .retry id expected sessionId artifactPath =>
    let (changed, db) := compareAndSetDispatchRetryRun id expected sessionId artifactPath s.db
    (db, publishedMarks db id changed)
  | .bind id sessionId =>
    let (changed, db) := bindDispatchSession id sessionId s.db
    (db, publishedMarks db id changed)
  | .observe id => (s.db, (dispatchRunRef s.db id).toList.map .observed)
  | .stampExit run exitCode now =>
    match stampDispatchExit run exitCode now s.db with
    | (.stamped, db) =>
      (db, [.reported run.id run.runGen exitCode, .stamped run.id run.runGen exitCode])
    | (.alreadyStamped, db) => (db, [.reported run.id run.runGen exitCode])
    | (_, db) => (db, [])
  | .setStatus run expected status note now =>
    ((compareAndSetDispatchStatusRun run expected status note now s.db).2, [])
  | .park run expected note => ((compareAndSetDispatchRetryParkRun run expected note s.db).2, [])
  | .settle run expected note =>
    ((compareAndSetDispatchRetrySettleRun run expected note s.db).2, [])
  | .count run failureClass =>
    match countDispatchRetryAttemptRun run failureClass s.db with
    | (some _, db) => (db, [.counted run.id run.runGen])
    | (none, db) => (db, [])
  | .setNative run nativeSessionId =>
    let (changed, db) := setDispatchNativeSession run nativeSessionId s.db
    (db, if changed then [.native run.id run.runGen] else [])

def runStep (s : RunState) (e : RunEvent) : RunState :=
  let (db, marks) := runEffect s e
  ⟨db, marks ++ s.log⟩

/-- A row that is bound to a session has no exit stamp. -/
def BindsFresh (s : RunState) : RunEvent → Prop
  | .bind id sessionId =>
    ∀ r, s.db.getDispatch id = some r → sessionId ≠ [] → r.status.isActive = true →
      r.session = [] → r.exitCode = none ∧ r.exitedAtMs = none
  | _ => True

/-- The runs at the start have not exited. -/
def Unexited (db : Db) : Prop := ∀ r ∈ db.rows, r.exitCode = none ∧ r.exitedAtMs = none

inductive RunReach : RunState → Prop
  | start (db : Db) : db.WellFormed → Unexited db → RunReach ⟨db, []⟩
  | step {s : RunState} (e : RunEvent) : RunReach s → BindsFresh s e → RunReach (runStep s e)

/-! ## What an event does -/

/-- The columns of a run, other than its number, that a write keeps. -/
def SameRun (r r' : AgentDispatch) : Prop :=
  r'.runGen = r.runGen ∧ r'.exitCode = r.exitCode ∧ r'.exitedAtMs = r.exitedAtMs ∧
    r'.nativeSessionId = r.nativeSessionId

/-- Everything that an event can do, with its marks. -/
inductive RunOutcome (db : Db) (e : RunEvent) : Db → List RunMark → Prop
  | kept : RunOutcome db e db []
  | observed (run : DispatchRunRef) (r : AgentDispatch) (hr : db.getDispatch run.id = some r)
      (hgen : run.runGen = r.runGen) : RunOutcome db e db [.observed run]
  | published (r r' : AgentDispatch) (db' : Db) (hdb : Changes db db' r r')
      (hgen : r'.runGen = r.runGen + 1)
      (hexit : r'.exitCode = none ∧ r'.exitedAtMs = none) (hnative : r'.nativeSessionId = none)
        (hrun : e.run = none) :
      RunOutcome db e db' [.published r.id r'.runGen]
  | stamped (run : DispatchRunRef) (r : AgentDispatch) (code : Option Int) (now : Int) (db' : Db)
      (he : e.run = some run) (hid : run.id = r.id)
      (hdb : Changes db db' r { r with exitCode := code, exitedAtMs := some now })
      (hgen : run.runGen = r.runGen) (hopen : r.exitedAtMs = none) :
      RunOutcome db e db' [.reported r.id r.runGen code, .stamped r.id r.runGen code]
  | reported (r : AgentDispatch) (code : Option Int) (hr : db.getDispatch r.id = some r)
      (hclosed : r.exitedAtMs.isSome = true) : RunOutcome db e db [.reported r.id r.runGen code]
  | counted (run : DispatchRunRef) (r r' : AgentDispatch) (db' : Db) (he : e.run = some run)
      (hid : run.id = r.id)
      (hdb : Changes db db' r r') (hgen : run.runGen = r.runGen)
        (hopen : r.retryCountedGen ≠ some r.runGen)
      (hsame : SameRun r r') (hcount : r'.retryCountedGen = some r.runGen) :
      RunOutcome db e db' [.counted r.id r.runGen]
  | native (run : DispatchRunRef) (r : AgentDispatch) (sid : Text) (db' : Db)
      (he : e.run = some run)
      (hid : run.id = r.id) (hdb : Changes db db' r { r with nativeSessionId := some sid })
      (hgen : run.runGen = r.runGen) (hopen : r.nativeSessionId = none) :
      RunOutcome db e db' [.native r.id r.runGen]
  | wrote (run : DispatchRunRef) (r r' : AgentDispatch) (db' : Db) (he : e.run = some run)
      (hid : run.id = r.id)
      (hdb : Changes db db' r r') (hgen : run.runGen = r.runGen) (hsame : SameRun r r')
      (hcount : r'.retryCountedGen = r.retryCountedGen ∨ r'.retryCountedGen = some r.runGen) :
      RunOutcome db e db' []

variable {db : Db}

theorem current_gen {run : DispatchRunRef} {r : AgentDispatch} (h : run.current r = true) :
    run.runGen = r.runGen := by
  rw [DispatchRunRef.current, Bool.and_eq_true, decide_eq_true_eq, decide_eq_true_eq] at h
  exact h.2.symm

theorem publishedMarks_of_changes (hdb : db.WellFormed) {db' : Db} {id : Int} {r r' : AgentDispatch}
    (hr : db.getDispatch id = some r) (h : Changes db db' r r') :
    publishedMarks db' id true = [.published r.id r'.runGen] := by
  have hid := (Db.mem_of_getDispatch hr).2
  unfold publishedMarks
  rw [h.getDispatch hdb id, if_pos rfl, if_pos hid.symm, hid]
  rfl

theorem runEffect_outcome {s : RunState} (hdb : s.db.WellFormed) {e : RunEvent}
    (he : BindsFresh s e) : RunOutcome s.db e (runEffect s e).1 (runEffect s e).2 := by
  cases e with
  | publish id sid path =>
    simp only [runEffect]
    rcases publishDispatchRun_cases hdb id sid path with ⟨o, ho, heq⟩ | ⟨r, db', hr, -, heq, hch⟩
    · rw [heq]
      have hmarks : publishedMarks s.db id (decide (o = .published)) = [] := by
        rw [decide_eq_false ho]
        rfl
      simp only [hmarks]
      exact .kept
    · rw [heq]
      simp only [decide_true, publishedMarks_of_changes hdb hr hch]
      exact .published r _ db' hch rfl ⟨rfl, rfl⟩ rfl rfl
  | retry id expected sid path =>
    simp only [runEffect]
    rcases compareAndSetDispatchRetryRun_cases hdb id expected sid path with heq
      | ⟨r, db', hr, -, heq, hch⟩
    · rw [heq]
      exact .kept
    · rw [heq]
      simp only [publishedMarks_of_changes hdb hr hch]
      exact .published r _ db' hch rfl ⟨rfl, rfl⟩ rfl rfl
  | bind id sid =>
    simp only [runEffect]
    rcases bindDispatchSession_cases hdb id sid with heq
      | ⟨r, db', hr, hsid, hact, hsession, heq, hch⟩
    · rw [heq]
      exact .kept
    · rw [heq]
      simp only [publishedMarks_of_changes hdb hr hch]
      exact .published r _ db' hch rfl (he r hr hsid hact hsession) rfl rfl
  | observe id =>
    simp only [runEffect, dispatchRunRef]
    cases hr : s.db.getDispatch id with
    | none => exact .kept
    | some r =>
      have hid := (Db.mem_of_getDispatch hr).2
      subst hid
      exact .observed ⟨r.id, r.issueId, r.session, r.runGen⟩ r hr rfl
  | stampExit run code now =>
    simp only [runEffect]
    rcases stampDispatchExit_cases hdb run code now with
      ⟨r, db', hr, hcur, hopen, heq, hch⟩ | ⟨r, hr, hcur, hclosed, heq⟩ | ⟨heq | heq, -⟩
    · rw [heq, current_gen hcur, ← (Db.mem_of_getDispatch hr).2]
      exact .stamped run r code now db' rfl (Db.mem_of_getDispatch hr).2.symm hch
        (current_gen hcur) hopen
    · rw [heq, current_gen hcur, ← (Db.mem_of_getDispatch hr).2]
      exact .reported r code ((Db.mem_of_getDispatch hr).2 ▸ hr) hclosed
    · rw [heq]
      exact .kept
    · rw [heq]
      exact .kept
  | setStatus run expected status note now =>
    simp only [runEffect, compareAndSetDispatchStatusRun]
    rcases casDispatchStatus_cases hdb run.id (some run) expected status note now with
      ⟨a, -, heq⟩ | ⟨r, db', hr, -, hcur, heq, hch⟩
    · rw [heq]
      exact .kept
    · rw [heq]
      exact .wrote run r _ db' rfl (Db.mem_of_getDispatch hr).2.symm hch (current_gen hcur) ⟨rfl,
        rfl, rfl, rfl⟩
        (.inl rfl)
  | park run expected note =>
    simp only [runEffect, compareAndSetDispatchRetryParkRun]
    rcases parkWhere_cases hdb run.id (fun r => r.status = expected &&
      run.current r) AgentDispatch.parked
        (fun _ _ => rfl) note with ⟨a, -, heq⟩ | ⟨r, db', n, hr, hcond, heq, hch⟩
    · rw [heq]
      exact .kept
    · rw [heq]
      rw [Bool.and_eq_true] at hcond
      exact .wrote run r _ db' rfl (Db.mem_of_getDispatch hr).2.symm hch (current_gen hcond.2) ⟨rfl,
        rfl, rfl, rfl⟩
        (.inl rfl)
  | settle run expected note =>
    simp only [runEffect, compareAndSetDispatchRetrySettleRun]
    rcases parkWhere_cases hdb run.id (fun r => r.status = expected && run.current r)
        (AgentDispatch.settled run.runGen) (fun _ _ => rfl) note
          with ⟨a, -, heq⟩ | ⟨r, db', n, hr, hcond, heq, hch⟩
    · rw [heq]
      exact .kept
    · rw [heq]
      rw [Bool.and_eq_true] at hcond
      exact .wrote run r _ db' rfl (Db.mem_of_getDispatch hr).2.symm hch (current_gen hcond.2) ⟨rfl,
        rfl, rfl, rfl⟩
        (.inr (congrArg some (current_gen hcond.2)))
  | count run failureClass =>
    simp only [runEffect]
    rcases countDispatchRetryAttemptRun_cases hdb run failureClass with
      heq | ⟨r, db', n, hr, hcur, hopen, heq, hch⟩
    · rw [heq]
      exact .kept
    · have hgen := current_gen hcur
      rw [heq]
      dsimp only
      rw [hgen] at hopen hch ⊢
      rw [← (Db.mem_of_getDispatch hr).2]
      exact .counted run r _ db' rfl (Db.mem_of_getDispatch hr).2.symm hch hgen hopen ⟨rfl, rfl,
        rfl, rfl⟩ rfl
  | setNative run native =>
    simp only [runEffect]
    rcases setDispatchNativeSession_cases hdb run native with heq
      | ⟨r, db', hr, hcur, hopen, heq, hch⟩
    · rw [heq]
      exact .kept
    · rw [heq]
      simp only [if_true]
      rw [current_gen hcur, ← (Db.mem_of_getDispatch hr).2]
      exact .native run r native db' rfl (Db.mem_of_getDispatch hr).2.symm hch
        (current_gen hcur) hopen

/-! ## The invariant -/

/-- The row that a mark is about. -/
def RunMark.id : RunMark → Int
  | .observed run => run.id
  | .published id _ => id
  | .reported id _ _ => id
  | .stamped id _ _ => id
  | .counted id _ => id
  | .native id _ => id

/-- The run that a mark is about. -/
def RunMark.gen : RunMark → Int
  | .observed run => run.runGen
  | .published _ gen => gen
  | .reported _ gen _ => gen
  | .stamped _ gen _ => gen
  | .counted _ gen => gen
  | .native _ gen => gen

/-- What the log says of the current run of a row. -/
structure RowInv (log : List RunMark) (r : AgentDispatch) : Prop where
  bounded : ∀ m ∈ log, m.id = r.id → m.gen ≤ r.runGen
  stamp : ∀ code, .stamped r.id r.runGen code ∈ log → r.exitedAtMs.isSome = true ∧ r.exitCode = code
  exited : r.exitedAtMs.isSome = true → ∃ code, .reported r.id r.runGen code ∈ log
  count : .counted r.id r.runGen ∈ log → r.retryCountedGen = some r.runGen
  native : .native r.id r.runGen ∈ log → r.nativeSessionId.isSome = true

/-- Marks about other rows say nothing of a row. -/
theorem RowInv.frame {log marks : List RunMark} {r : AgentDispatch} (h : RowInv log r)
    (hm : ∀ m ∈ marks, m.id ≠ r.id) :
    RowInv (marks ++ log) r where
  bounded :=
    fun m hmem hid => (mem_append.mp hmem).elim (fun hin => absurd hid (hm m hin)) fun hin =>
    h.bounded m hin hid
  stamp := fun code hmem => (mem_append.mp hmem).elim (fun hin => absurd rfl (hm _ hin))
    (h.stamp code)
  exited := fun hex => (h.exited hex).imp fun _ hin => mem_append_right _ hin
  count := fun hmem => (mem_append.mp hmem).elim (fun hin => absurd rfl (hm _ hin)) h.count
  native := fun hmem => (mem_append.mp hmem).elim (fun hin => absurd rfl (hm _ hin)) h.native

def isStamp (id gen : Int) : RunMark → Bool
  | .stamped i g _ => i = id && g = gen
  | _ => false

def isCount (id gen : Int) : RunMark → Bool
  | .counted i g => i = id && g = gen
  | _ => false

def isNative (id gen : Int) : RunMark → Bool
  | .native i g => i = id && g = gen
  | _ => false

theorem isStamp_iff {id gen : Int} {m : RunMark} : isStamp id gen m = true ↔
    ∃ code, m = .stamped id gen code := by
  cases m <;> simp [isStamp]

theorem isCount_iff {id gen : Int} {m : RunMark} : isCount id gen m = true ↔
    m = .counted id gen := by
  cases m <;> simp [isCount]

theorem isNative_iff {id gen : Int} {m : RunMark} : isNative id gen m = true ↔
    m = .native id gen := by
  cases m <;> simp [isNative]

/-- What holds of the log alone. -/
structure LogInv (log : List RunMark) : Prop where
  fenced : ∀ newer id g older run, log = newer ++ RunMark.published id g :: older →
    .observed run ∈ older → run.id = id → run.runGen < g
  first : ∀ newer id g code older, log = newer ++ RunMark.reported id g code :: older →
    (∀ c, .reported id g c ∉ older) → .stamped id g code ∈ older
  stampOnce : ∀ id g, log.countP (isStamp id g) ≤ 1
  countOnce : ∀ id g, log.countP (isCount id g) ≤ 1
  nativeOnce : ∀ id g, log.countP (isNative id g) ≤ 1

structure RunInv (s : RunState) : Prop where
  wellFormed : s.db.WellFormed
  row : ∀ r ∈ s.db.rows, RowInv s.log r
  log : LogInv s.log
  latest : ∀ r ∈ s.db.rows, ∀ g, s.log.head? = some (.published r.id g) →
    r.exitCode = none ∧ r.exitedAtMs = none ∧ r.nativeSessionId = none

/-! ### The log -/

/-- A split of a longer list at a mark is one at its head, or one of the rest. -/
theorem cons_split {α : Type} {m x : α} {log newer older : List α}
    (h : m :: log = newer ++ x :: older) :
    (newer = [] ∧ m = x ∧ log = older) ∨ ∃ newer', newer = m :: newer' ∧
    log = newer' ++ x :: older := by
  cases newer with
  | nil =>
    rw [nil_append, List.cons.injEq] at h
    exact .inl ⟨rfl, h.1, h.2⟩
  | cons y newer =>
    rw [cons_append, List.cons.injEq] at h
    exact .inr ⟨newer, by rw [h.1], h.2⟩

theorem LogInv.nil : LogInv [] where
  fenced := by
    intro newer id g older run h
    simp at h
  first := by
    intro newer id g code older h
    simp at h
  stampOnce := fun _ _ => Nat.zero_le _
  countOnce := fun _ _ => Nat.zero_le _
  nativeOnce := fun _ _ => Nat.zero_le _

theorem countP_cons_le {α : Type} {p : α → Bool} {m : α} {log : List α} (h : log.countP p ≤ 1)
    (hm : p m = true → log.countP p = 0) : (m :: log).countP p ≤ 1 := by
  rw [countP_cons]
  split_ifs with hp
  · rw [hm hp]
  · exact h

/-- What a mark must meet to be added to the log. -/
theorem LogInv.cons {log : List RunMark} (h : LogInv log) (m : RunMark)
    (hpub : ∀ id g, m = .published id g → ∀ run, .observed run ∈ log → run.id = id → run.runGen < g)
    (hrep : ∀ id g code, m = .reported id g code → (∀ c, .reported id g c ∉ log) →
      .stamped id g code ∈ log)
    (hstamp : ∀ id g code, m = .stamped id g code → log.countP (isStamp id g) = 0)
    (hcount : ∀ id g, m = .counted id g → log.countP (isCount id g) = 0)
    (hnative : ∀ id g, m = .native id g → log.countP (isNative id g) = 0) : LogInv (m :: log) where
  fenced := by
    intro newer id g older run hsplit hobs hid
    rcases cons_split hsplit with ⟨-, rfl, rfl⟩ | ⟨newer', -, hlog⟩
    · exact hpub id g rfl run hobs hid
    · exact h.fenced newer' id g older run hlog hobs hid
  first := by
    intro newer id g code older hsplit hnone
    rcases cons_split hsplit with ⟨-, rfl, rfl⟩ | ⟨newer', rfl, hlog⟩
    · exact hrep id g code rfl hnone
    · exact h.first newer' id g code older hlog hnone
  stampOnce := by
    intro id g
    refine countP_cons_le (h.stampOnce id g) (fun hm => ?_)
    obtain ⟨code, rfl⟩ := isStamp_iff.mp hm
    exact hstamp id g code rfl
  countOnce :=
    fun id g => countP_cons_le (h.countOnce id g) fun hm => hcount id g (isCount_iff.mp hm)
  nativeOnce :=
    fun id g => countP_cons_le (h.nativeOnce id g) fun hm => hnative id g (isNative_iff.mp hm)

theorem RunInv.row_of_get {s : RunState} (hs : RunInv s) {id : Int} {r : AgentDispatch}
    (h : s.db.getDispatch id = some r) : RowInv s.log r :=
  hs.row r (Db.mem_of_getDispatch h).1

theorem RunInv.step_log {s : RunState} (hs : RunInv s) {e : RunEvent} {db' : Db}
    {marks : List RunMark} (ho : RunOutcome s.db e db' marks) : LogInv (marks ++ s.log) := by
  cases ho with
  | kept => exact hs.log
  | wrote => exact hs.log
  | observed run r hr hgen => exact hs.log.cons _ nofun nofun nofun nofun nofun
  | published r r' _ hdb hgen =>
    refine hs.log.cons _ (fun id g heq run hobs hid => ?_) nofun nofun nofun nofun
    cases heq
    have hle : run.runGen ≤ r.runGen := (hs.row r hdb.mem).bounded _ hobs hid
    omega
  | stamped run r code now _ he hid hdb hgen hopen =>
    have hrow := hs.row r hdb.mem
    have hnone : ∀ c, .stamped r.id r.runGen c ∉ s.log := by
      intro c hc
      have hsome := (hrow.stamp c hc).1
      rw [hopen] at hsome
      cases hsome
    refine LogInv.cons ?_ _ nofun (fun id g c heq _ => ?_) nofun nofun nofun
    · refine hs.log.cons _ nofun nofun (fun id g c heq => ?_) nofun nofun
      cases heq
      refine countP_eq_zero.mpr (fun m hm hp => ?_)
      obtain ⟨c', rfl⟩ := isStamp_iff.mp hp
      exact hnone c' hm
    · cases heq
      exact .head _
  | reported r code hr hclosed =>
    refine hs.log.cons _ nofun (fun id g c heq hnone => ?_) nofun nofun nofun
    cases heq
    obtain ⟨c', hc'⟩ := (hs.row_of_get hr).exited hclosed
    exact absurd hc' (hnone c')
  | counted run r r' _ he hid hdb hgen hopen =>
    refine hs.log.cons _ nofun nofun nofun (fun id g heq => ?_) nofun
    cases heq
    refine countP_eq_zero.mpr (fun m hm hp => ?_)
    rw [isCount_iff.mp hp] at hm
    exact hopen ((hs.row r hdb.mem).count hm)
  | native run r sid _ he hid hdb hgen hopen =>
    refine hs.log.cons _ nofun nofun nofun nofun (fun id g heq => ?_)
    cases heq
    refine countP_eq_zero.mpr (fun m hm hp => ?_)
    rw [isNative_iff.mp hp] at hm
    have hsome := (hs.row r hdb.mem).native hm
    rw [hopen] at hsome
    cases hsome

/-- The marks about a row that changes are about its id. -/
theorem RunInv.row_of_changes {s : RunState} (hs : RunInv s) {db' : Db} {r r' : AgentDispatch}
    {marks : List RunMark}
    (hdb : Changes s.db db' r r') (hmarks : ∀ m ∈ marks, m.id = r.id)
    (hr' : RowInv (marks ++ s.log) r')
    {x : AgentDispatch} (hx : x ∈ db'.rows) : RowInv (marks ++ s.log) x := by
  rcases hdb.mem_cases hx with rfl | ⟨hmem, hne⟩
  · exact hr'
  · exact (hs.row x hmem).frame fun m hm heq => hne (heq.symm.trans (hmarks m hm))

/-- A mark about the row's current run that is no stamp, attempt or native session. -/
theorem RowInv.cons_other {log : List RunMark} {r : AgentDispatch} (h : RowInv log r) (m : RunMark)
    (hgen : m.id = r.id → m.gen ≤ r.runGen) (hstamp : ∀ id g code, m ≠ .stamped id g code)
    (hcount : ∀ id g, m ≠ .counted id g) (hnative : ∀ id g, m ≠ .native id g) :
    RowInv (m :: log) r where
  bounded := by
    intro x hx hid
    rcases mem_cons.mp hx with rfl | hx
    · exact hgen hid
    · exact h.bounded x hx hid
  stamp := fun code hmem => h.stamp code ((mem_cons.mp hmem).resolve_left (hstamp _ _ _).symm)
  exited := fun hex => (h.exited hex).imp fun _ hin => .tail _ hin
  count := fun hmem => h.count ((mem_cons.mp hmem).resolve_left (hcount _ _).symm)
  native := fun hmem => h.native ((mem_cons.mp hmem).resolve_left (hnative _ _).symm)

/-- A row that keeps its run keeps what the log says of it. -/
theorem RowInv.same {log : List RunMark} {r r' : AgentDispatch} (h : RowInv log r)
    (hid : r'.id = r.id)
    (hsame : SameRun r r') (hcount : r'.retryCountedGen = r.retryCountedGen ∨
      r'.retryCountedGen = some r.runGen) :
    RowInv log r' := by
  obtain ⟨hgen, hcode, hex, hnat⟩ := hsame
  refine ⟨?_, ?_, ?_, ?_, ?_⟩
  · rw [hid, hgen]
    exact h.bounded
  · rw [hid, hgen, hcode, hex]
    exact h.stamp
  · rw [hid, hgen, hex]
    exact h.exited
  · rw [hid, hgen]
    intro hmem
    rcases hcount with hc | hc
    · rw [hc]
      exact h.count hmem
    · exact hc
  · rw [hid, hgen, hnat]
    exact h.native

/-- A new run, of which the log knows nothing. -/
theorem RowInv.published {log : List RunMark} {r r' : AgentDispatch} (h : RowInv log r)
    (hid : r'.id = r.id) (hgen : r'.runGen = r.runGen + 1) (hexit : r'.exitedAtMs = none) :
    RowInv (.published r.id r'.runGen :: log) r' := by
  have hnew : ∀ m ∈ log, m.id = r.id → m.gen ≠ r'.runGen := by
    intro m hm hid' heq
    have hle := h.bounded m hm hid'
    omega
  refine RowInv.cons_other ⟨?_, ?_, ?_, ?_, ?_⟩ _ (fun _ => le_rfl) nofun nofun nofun
  · intro m hm hid'
    have hle := h.bounded m hm (hid'.trans hid)
    omega
  · intro code hmem
    exact absurd rfl (hnew _ hmem hid)
  · intro hsome
    rw [hexit] at hsome
    cases hsome
  · intro hmem
    exact absurd rfl (hnew _ hmem hid)
  · intro hmem
    exact absurd rfl (hnew _ hmem hid)

theorem RunInv.step_row {s : RunState} (hs : RunInv s) {e : RunEvent} {db' : Db}
    {marks : List RunMark}
    (ho : RunOutcome s.db e db' marks) {x : AgentDispatch} (hx : x ∈ db'.rows) :
    RowInv (marks ++ s.log) x := by
  cases ho with
  | kept => exact hs.row x hx
  | observed run r hr hgen =>
    refine (hs.row x hx).cons_other _ (fun hid => ?_) nofun nofun nofun
    have hget := hs.wellFormed.getDispatch_of_mem hx
    rw [← show run.id = x.id from hid, hr] at hget
    cases hget
    exact le_of_eq hgen
  | published r r' _ hdb hgen hexit =>
    refine hs.row_of_changes hdb (fun m hm => ?_)
      ((hs.row r hdb.mem).published hdb.sameId hgen hexit.2) hx
    rw [mem_singleton.mp hm]
    rfl
  | stamped run r code now _ he hid hdb hgen hopen =>
    refine hs.row_of_changes hdb (fun m hm => ?_) ?_ hx
    · simp only [mem_cons, not_mem_nil, or_false] at hm
      rcases hm with rfl | rfl <;> rfl
    · have hrow := hs.row r hdb.mem
      refine ⟨?_, ?_, ?_, ?_, ?_⟩
      · intro m hm hid'
        simp only [cons_append, nil_append, mem_cons] at hm
        rcases hm with rfl | rfl | hm
        · exact le_rfl
        · exact le_rfl
        · exact hrow.bounded m hm hid'
      · intro c hc
        simp only [cons_append, nil_append, mem_cons, reduceCtorEq, false_or, RunMark.stamped.injEq,
          true_and] at hc
        rcases hc with rfl | hc
        · exact ⟨rfl, rfl⟩
        · have hsome := (hrow.stamp c hc).1
          rw [hopen] at hsome
          cases hsome
      · exact fun _ => ⟨code, .head _⟩
      · intro hmem
        simp only [cons_append, nil_append, mem_cons, reduceCtorEq, false_or] at hmem
        exact hrow.count hmem
      · intro hmem
        simp only [cons_append, nil_append, mem_cons, reduceCtorEq, false_or] at hmem
        exact hrow.native hmem
  | reported r code hr hclosed =>
    refine (hs.row x hx).cons_other _ (fun hid => ?_) nofun nofun nofun
    have hget := hs.wellFormed.getDispatch_of_mem hx
    rw [← show r.id = x.id from hid, hr] at hget
    cases hget
    exact le_rfl
  | counted run r r' _ he hid hdb hgen hopen hsame hcount =>
    refine hs.row_of_changes hdb (fun m hm => ?_) ?_ hx
    · rw [mem_singleton.mp hm]
      rfl
    · have hrow := (hs.row r hdb.mem).same hdb.sameId hsame (.inr hcount)
      refine ⟨?_, ?_, ?_, ?_, ?_⟩
      · intro m hm hid'
        rcases mem_cons.mp hm with rfl | hm
        · exact le_of_eq hsame.1.symm
        · exact hrow.bounded m hm hid'
      · exact fun c hc => hrow.stamp c ((mem_cons.mp hc).resolve_left nofun)
      · exact fun hex => (hrow.exited hex).imp fun _ hin => .tail _ hin
      · intro _
        rw [hsame.1]
        exact hcount
      · exact fun hmem => hrow.native ((mem_cons.mp hmem).resolve_left nofun)
  | native run r sid _ he hid hdb hgen hopen =>
    refine hs.row_of_changes hdb (fun m hm => ?_) ?_ hx
    · rw [mem_singleton.mp hm]
      rfl
    · have hrow := hs.row r hdb.mem
      refine ⟨?_, ?_, ?_, ?_, ?_⟩
      · intro m hm hid'
        rcases mem_cons.mp hm with rfl | hm
        · exact le_rfl
        · exact hrow.bounded m hm hid'
      · exact fun c hc => hrow.stamp c ((mem_cons.mp hc).resolve_left nofun)
      · exact fun hex => (hrow.exited hex).imp fun _ hin => .tail _ hin
      · exact fun hmem => hrow.count ((mem_cons.mp hmem).resolve_left nofun)
      · exact fun _ => rfl
  | wrote run r r' _ he hid hdb hgen hsame hcount =>
    exact hs.row_of_changes hdb (fun m hm => absurd hm not_mem_nil)
      ((hs.row r hdb.mem).same hdb.sameId hsame hcount) hx

theorem RunInv.step_latest {s : RunState} (hs : RunInv s) {e : RunEvent} {db' : Db}
    {marks : List RunMark}
    (ho : RunOutcome s.db e db' marks) {x : AgentDispatch} (hx : x ∈ db'.rows) {g : Int}
    (hhead : (marks ++ s.log).head? = some (.published x.id g)) :
    x.exitCode = none ∧ x.exitedAtMs = none ∧ x.nativeSessionId = none := by
  cases ho with
  | kept => exact hs.latest x hx g hhead
  | observed => cases hhead
  | stamped => cases hhead
  | reported => cases hhead
  | counted => cases hhead
  | native => cases hhead
  | published r r' _ hdb hgen hexit hnative =>
    rw [cons_append, List.head?_cons, Option.some.injEq, RunMark.published.injEq] at hhead
    rcases hdb.mem_cases hx with rfl | ⟨-, hne⟩
    · exact ⟨hexit.1, hexit.2, hnative⟩
    · exact absurd hhead.1.symm hne
  | wrote run r r' _ he hid hdb hgen hsame =>
    rcases hdb.mem_cases hx with rfl | ⟨hmem, -⟩
    · rw [hdb.sameId] at hhead
      obtain ⟨hcode, hex, hnat⟩ := hs.latest r hdb.mem g hhead
      exact ⟨hsame.2.1.trans hcode, hsame.2.2.1.trans hex, hsame.2.2.2.trans hnat⟩
    · exact hs.latest x hmem g hhead

theorem RunOutcome.wellFormed {db db' : Db} {e : RunEvent} {marks : List RunMark}
    (ho : RunOutcome db e db' marks) (hdb : db.WellFormed) : db'.WellFormed := by
  cases ho with
  | kept => exact hdb
  | observed => exact hdb
  | reported => exact hdb
  | published r r' _ hch => exact hch.wellFormed hdb
  | stamped run r code now _ he hid hch => exact hch.wellFormed hdb
  | counted run r r' _ he hid hch => exact hch.wellFormed hdb
  | native run r sid _ he hid hch => exact hch.wellFormed hdb
  | wrote run r r' _ he hid hch => exact hch.wellFormed hdb

theorem RunInv.step {s : RunState} (hs : RunInv s) {e : RunEvent} (he : BindsFresh s e) :
    RunInv (runStep s e) := by
  have ho := runEffect_outcome hs.wellFormed he
  exact ⟨ho.wellFormed hs.wellFormed, fun x hx => hs.step_row ho hx, hs.step_log ho,
    fun x hx g => hs.step_latest ho hx⟩

theorem RunReach.inv {s : RunState} (h : RunReach s) : RunInv s := by
  induction h with
  | start db hdb hexit =>
    refine ⟨hdb, fun r hr => ?_, LogInv.nil, fun r _ g hhead => nomatch hhead⟩
    refine ⟨fun m hm => absurd hm not_mem_nil, fun _ hm => absurd hm not_mem_nil, ?_,
      fun hm => absurd hm not_mem_nil, fun hm => absurd hm not_mem_nil⟩
    rw [(hexit r hr).2]
    nofun
  | step e _ he ih => exact ih.step he

/-! ## Runs are fenced -/

/-- The number of a row's run never falls, and rises when a run is published. -/
theorem RunOutcome.gen {db db' : Db} {e : RunEvent} {marks : List RunMark}
    (ho : RunOutcome db e db' marks)
    (hdb : db.WellFormed) {id : Int} {r : AgentDispatch} (hr : db.getDispatch id = some r) :
    ∃ r', db'.getDispatch id = some r' ∧ r.runGen ≤ r'.runGen ∧
      ∀ g, .published id g ∈ marks → r.runGen < g ∧ r'.runGen = g := by
  have hid := (Db.mem_of_getDispatch hr).2
  -- a row that changes, with what it becomes
  have hchange : ∀ r0 r0', Changes db db' r0 r0' → r0.runGen ≤ r0'.runGen →
      (∀ g, .published id g ∈ marks → id = r0.id ∧ r0.runGen < g ∧ r0'.runGen = g) →
      ∃ r', db'.getDispatch id = some r' ∧ r.runGen ≤ r'.runGen ∧
        ∀ g, .published id g ∈ marks → r.runGen < g ∧ r'.runGen = g := by
    intro r0 r0' hch hle hmarks
    have hget := hch.getDispatch hdb id
    by_cases heq : id = r0.id
    · have hr0 : r = r0 := by
        have hold := hdb.getDispatch_of_mem hch.mem
        rw [← heq, hr] at hold
        exact Option.some.inj hold
      rw [if_pos heq] at hget
      rw [hr0]
      exact ⟨r0', hget, hle, fun g hg => (hmarks g hg).2⟩
    · rw [if_neg heq] at hget
      exact ⟨r, hget.trans hr, le_rfl, fun g hg => absurd (hmarks g hg).1 heq⟩
  have hkept : (∀ g, .published id g ∉ marks) → db'.getDispatch id = db.getDispatch id → ∃ r',
      db'.getDispatch id = some r' ∧ r.runGen ≤ r'.runGen ∧ ∀ g, .published id g ∈ marks →
        r.runGen < g ∧ r'.runGen = g :=
    fun hno heq => ⟨r, heq.trans hr, le_rfl, fun g hg => absurd hg (hno g)⟩
  cases ho with
  | kept => exact hkept (fun g => not_mem_nil) rfl
  | observed => exact hkept (fun g hg => nomatch mem_singleton.mp hg) rfl
  | reported => exact hkept (fun g hg => nomatch mem_singleton.mp hg) rfl
  | published r0 r0' _ hch hgen =>
    refine hchange r0 r0' hch (by omega) (fun g hg => ?_)
    rw [mem_singleton, RunMark.published.injEq] at hg
    exact ⟨hg.1, by omega, hg.2.symm⟩
  | stamped run r0 code now _ he hid' hch =>
    refine hchange r0 _ hch le_rfl (fun g hg => ?_)
    simp at hg
  | counted run r0 r0' _ he hid' hch hgen hopen hsame =>
    exact hchange r0 r0' hch hsame.1.ge (fun g hg => nomatch mem_singleton.mp hg)
  | native run r0 sid _ he hid' hch =>
    exact hchange r0 _ hch le_rfl (fun g hg => nomatch mem_singleton.mp hg)
  | wrote run r0 r0' _ he hid' hch hgen hsame =>
    exact hchange r0 r0' hch hsame.1.ge (fun g hg => absurd hg not_mem_nil)

/-- A writer that names a run other than the row's current one changes nothing. -/
theorem RunOutcome.stale {db db' : Db} {e : RunEvent} {marks : List RunMark}
    (ho : RunOutcome db e db' marks)
    (hdb : db.WellFormed) {run : DispatchRunRef} (he : e.run = some run)
    (hstale : ∀ r, db.getDispatch run.id = some r → run.runGen ≠ r.runGen) : db' = db := by
  have hcur : ∀ run' r r', e.run = some run' → run'.id = r.id → Changes db db' r r' →
    run'.runGen = r.runGen → db' = db := by
    intro run' r r' he' hid hch hgen
    rw [he] at he'
    cases he'
    exact absurd hgen (hstale r (hid ▸ hdb.getDispatch_of_mem hch.mem))
  cases ho with
  | kept => rfl
  | observed => rfl
  | reported => rfl
  | published r r' _ hch hgen hexit hnative hrun =>
    rw [he] at hrun
    cases hrun
  | stamped run' r code now _ he' hid hch hgen => exact hcur run' r _ he' hid hch hgen
  | counted run' r r' _ he' hid hch hgen => exact hcur run' r r' he' hid hch hgen
  | native run' r sid _ he' hid hch hgen => exact hcur run' r _ he' hid hch hgen
  | wrote run' r r' _ he' hid hch hgen => exact hcur run' r r' he' hid hch hgen

theorem runs_fenced {s : RunState} (h : RunReach s) :
    (∀ e, BindsFresh s e → ∀ id r, s.db.getDispatch id = some r →
      ∃ r', (runStep s e).db.getDispatch id = some r' ∧
        r.runGen ≤ r'.runGen ∧ ∀ g, .published id g ∈ (runEffect s e).2 →
        r.runGen < g ∧ r'.runGen = g) ∧
      (∀ newer id g older run e, s.log = newer ++ RunMark.published id g :: older →
        .observed run ∈ older → run.id = id →
        e.run = some run → (runStep s e).db = s.db) ∧
      (∀ r ∈ s.db.rows, ∀ g, s.log.head? = some (.published r.id g) →
        r.exitCode = none ∧ r.exitedAtMs = none ∧ r.nativeSessionId = none) ∧
      (∀ id g, s.log.countP (isStamp id g) ≤ 1 ∧ s.log.countP (isCount id g) ≤ 1 ∧
        s.log.countP (isNative id g) ≤ 1) ∧
      (∀ newer id g code older, s.log = newer ++ RunMark.reported id g code :: older →
        (∀ c, .reported id g c ∉ older) →
        .stamped id g code ∈ older) ∧
      ∀ r ∈ s.db.rows, ∀ code, .stamped r.id r.runGen code ∈ s.log →
      r.exitedAtMs.isSome = true ∧ r.exitCode = code := by
  have hs := h.inv
  refine ⟨?_, ?_, hs.latest, ?_, hs.log.first, fun r hr => (hs.row r hr).stamp⟩
  · intro e he id r hr
    exact (runEffect_outcome hs.wellFormed he).gen hs.wellFormed hr
  · intro newer id g older run e hlog hobs hid he
    have hfresh : BindsFresh s e := by
      cases e with
      | bind id sid => cases he
      | _ => trivial
    refine (runEffect_outcome hs.wellFormed hfresh).stale hs.wellFormed he (fun r hr => ?_)
    have hlt := hs.log.fenced newer id g older run hlog hobs hid
    have hle : g ≤ r.runGen := by
      refine (hs.row_of_get hr).bounded (.published id g) (by rw [hlog]; simp) ?_
      rw [(Db.mem_of_getDispatch hr).2]
      exact hid.symm
    omega
  · intro id g
    exact ⟨hs.log.stampOnce id g, hs.log.countOnce id g, hs.log.nativeOnce id g⟩

/-- A roster with one row, queued and without a session. -/
def sampleDb : Db where
  rows := [NewDispatch.row ⟨['X'], ['w'], ['a'], none, none, none, none, none⟩ 1 0]
  notes := []
  lastId := 1
  leases := ⟨∅, some 0⟩

theorem sampleDb_start : RunReach ⟨sampleDb, []⟩ := by
  refine .start sampleDb ⟨by decide, fun r hr => ?_⟩ (fun r hr => ?_)
  · rw [mem_singleton.mp hr]
    decide
  · rw [mem_singleton.mp hr]
    exact ⟨rfl, rfl⟩

/-- The first run, before it is published. -/
def firstRun : DispatchRunRef := ⟨1, ['X'], [], 0⟩

/-- The run is observed, and then a run is published. -/
def republished : RunState := runStep (runStep ⟨sampleDb, []⟩ (.observe 1)) (.publish 1 ['s'] ['p'])

theorem runs_fenced_sample :
    republished.log = [.published 1 1, .observed firstRun] ∧
      (runStep republished (.stampExit firstRun (some 1) 5)).db = republished.db := by
  have hreach : RunReach republished := .step _ (.step _ sampleDb_start trivial) trivial
  have hlog : republished.log = [.published 1 1, .observed firstRun] := by decide
  obtain ⟨-, hstale, -⟩ := runs_fenced hreach
  exact ⟨hlog, hstale [] 1 1 [.observed firstRun] firstRun _ hlog (mem_singleton.mpr rfl) rfl rfl⟩

/-- The exit of a row without a session is stamped, and then a session is bound to the row. -/
def boundAfterExit : RunState :=
  runStep (runStep ⟨sampleDb, []⟩ (.stampExit firstRun (some 1) 5)) (.bind 1 ['s'])

/-- The new run has the exit stamp of the old one, and its own exit is not recorded. -/
theorem bound_run_inherits_exit :
    boundAfterExit.log.head? = some (.published 1 1) ∧
      (boundAfterExit.db.getDispatch 1).map (fun r => (r.runGen, r.exitCode, r.exitedAtMs)) =
        some (1, some 1, some 5) ∧
      (stampDispatchExit ⟨1, ['X'], ['s'], 1⟩ (some 0) 9 boundAfterExit.db).1 =
        .alreadyStamped := by
  decide

end Thegn.Dispatch
