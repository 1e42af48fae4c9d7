import Thegn.Dispatch.Claim
import Thegn.Dispatch.Writers

set_option autoImplicit false

/-! # Stages keep their capacity

Any number of supervisors claim, resume and change rows in any order, each call one transaction. A
slot is counted only when a row is inserted, so the bound rests on rows never becoming active again.
-/

namespace Thegn.Dispatch

open Text List

inductive DispatchCall
  | claim (a : ClaimArgs) (now : Int)
  | resume (a : ResumeArgs) (now : Int)
  | setStatus (id : Int) (expected target : AgentDispatchStatus) (note : Option Text)
      (proof : Lease.LeadProof) (now : Int)
  | setStatusForced (id : Int) (expected target : AgentDispatchStatus) (reason : Text)
      (proof : Lease.LeadProof) (now : Int)
  | publish (id : Int) (sessionId artifactPath : Text)
  | bind (id : Int) (sessionId : Text)
  | stampExit (run : DispatchRunRef) (exitCode : Option Int) (now : Int)
  | casStatus (id : Int) (expected status : AgentDispatchStatus) (note : Option Text) (now : Int)
  | casStatusRun (run : DispatchRunRef) (expected status : AgentDispatchStatus) (note : Option Text)
      (now : Int)
  | park (id : Int) (expected : AgentDispatchStatus) (note : Text)
  | parkRun (run : DispatchRunRef) (expected : AgentDispatchStatus) (note : Text)
  | settleRun (run : DispatchRunRef) (expected : AgentDispatchStatus) (note : Text)
  | retryRun (id : Int) (expected : AgentDispatchStatus) (sessionId artifactPath : Text)
  | count (run : DispatchRunRef) (failureClass : Text)
  | setNative (run : DispatchRunRef) (nativeSessionId : Text)
  /-- The leases change. -/
  | leases (leases : Lease.Db)

/-- The row that a call asks to insert. -/
def DispatchCall.new? : DispatchCall → Option NewDispatch
  | .claim a _ => some a.new
  | .resume a _ => some a.new
  | _ => none

/-- The answer accepts the call: it is no refusal, conflict or error. -/
def accepts {ε α : Type} : Except ε α → Bool
  | .ok _ => true
  | .error _ => false

/-- Whether a call is accepted, and the database after it. -/
def perform (db : Db) : DispatchCall → Bool × Db
  | .claim a now =>
    match claimDispatchAdmittedLed a now db with
    | (.ok r, db') => (accepts r, db')
    | (.error _, db') => (false, db')
  | .resume a now =>
    match claimResumeDispatchLed a now db with
    | (.ok r, db') => (accepts r, db')
    | (.error _, db') => (false, db')
  | .setStatus id expected target note proof now =>
    let (r, db') := setDispatchStatusLed id expected target note proof now db
    (accepts r, db')
  | .setStatusForced id expected target reason proof now =>
    let (r, db') := setDispatchStatusForcedLed id expected target reason proof now db
    (accepts r, db')
  | .publish id sessionId artifactPath =>
    let (r, db') := publishDispatchRun id sessionId artifactPath db
    (r = .published, db')
  | .bind id sessionId => bindDispatchSession id sessionId db
  | .stampExit run exitCode now =>
    let (r, db') := stampDispatchExit run exitCode now db
    (r = .stamped, db')
  | .casStatus id expected status note now =>
    let (r, db') := compareAndSetDispatchStatus id expected status note now db
    (r.toOption = some true, db')
  | .casStatusRun run expected status note now =>
    let (r, db') := compareAndSetDispatchStatusRun run expected status note now db
    (r.toOption = some true, db')
  | .park id expected note =>
    let (r, db') := compareAndSetDispatchRetryPark id expected note db
    (r.toOption = some true, db')
  | .parkRun run expected note =>
    let (r, db') := compareAndSetDispatchRetryParkRun run expected note db
    (r.toOption = some true, db')
  | .settleRun run expected note =>
    let (r, db') := compareAndSetDispatchRetrySettleRun run expected note db
    (r.toOption = some true, db')
  | .retryRun id expected sessionId artifactPath =>
    compareAndSetDispatchRetryRun id expected sessionId artifactPath db
  | .count run failureClass =>
    let (r, db') := countDispatchRetryAttemptRun run failureClass db
    (r.isSome, db')
  | .setNative run nativeSessionId => setDispatchNativeSession run nativeSessionId db
  | .leases leases => (true, { db with leases })

/-- The compare-and-set writers are called with an active status to expect. -/
def ExpectsActive : DispatchCall → Prop
  | .casStatus _ expected _ _ _ => expected.isActive = true
  | .casStatusRun _ expected _ _ _ => expected.isActive = true
  | .park _ expected _ => expected.isActive = true
  | .parkRun _ expected _ => expected.isActive = true
  | .settleRun _ expected _ => expected.isActive = true
  | .retryRun _ expected _ _ => expected.isActive = true
  | _ => True

/-- A stage has one limit, whoever claims a slot of it. -/
def Limited (limit : Text → Nat) : DispatchCall → Prop
  | .claim a _ => ∀ stage, a.new.stage = some stage → a.limit = limit (trim stage)
  | .resume a _ => ∀ stage, a.new.stage = some stage → a.limit = limit (trim stage)
  | _ => True

/-- The calls that supervisors make. -/
def Proper (limit : Text → Nat) (call : DispatchCall) : Prop :=
  ExpectsActive call ∧ Limited limit call

inductive Runs (limit : Text → Nat) : Db → Db → Prop
  | refl (db : Db) : Runs limit db db
  | step {db db' : Db} (call : DispatchCall) : Runs limit db db' → Proper limit call →
      Runs limit db (perform db' call).2

/-! ## What a call does -/

/-- A row does not come back to life and stays in its stage and scope. -/
structure Aged (r r' : AgentDispatch) : Prop where
  stage : r'.stage = r.stage
  active : r'.status.isActive = true → r.status.isActive = true
  scope : SameScope r r'

/-- Everything that a call does to the rows. -/
inductive CallOutcome (db : Db) (call : DispatchCall) : Bool → Db → Prop
  | refused : CallOutcome db call false db
  | leases (leases : Lease.Db) (hcall : call.new? = none) :
      CallOutcome db call true { db with leases }
  | changed (r r' : AgentDispatch) (db' : Db) (hcall : call.new? = none) (hdb : Changes db db' r r')
      (hr' : Aged r r') :
      CallOutcome db call true db'
  | claimed (a : ClaimArgs) (now id : Int) (x : AgentDispatch) (db' : Db)
      (hcall : call = .claim a now)
      (hgrant : admission a.new a.limit a.allowDuplicate.isSome a.prepared a.allowScope.isSome
        (admissionRows db a.new.issueId a.new.worktreePath) = .ok none)
      (hx : Inserted db db' a.new (a.prepared.map fun p => encodeChunkScope p.scope.files) id x) :
      CallOutcome db call true db'
  | resumed (a : ResumeArgs) (now id : Int) (source x : AgentDispatch) (db1 db' : Db)
      (hcall : call = .resume a now)
      (hsource : db.getDispatch a.sourceId = some source)
      (hclosed : (source.status.isActive = true ∧
        Changes db db1 source { source with status := .failed }) ∨
        (source.status.isActive = false ∧ db1 = db))
      (hgrant : decideClaim (admissionRows db1 a.new.issueId a.new.worktreePath) a.new.request
        a.limit = .grant)
      (hx : Inserted db1 db' a.new source.chunkScope id x) : CallOutcome db call true db'

theorem setStatus_aged {source target : AgentDispatchStatus}
    (h : setStatusTransitionAllowed source target = true)
    (ha : target.isActive = true) : source.isActive = true := by
  cases source <;> cases target <;> simp_all [setStatusTransitionAllowed,
    AgentDispatchStatus.isActive]

theorem claim_outcome {db : Db} (hdb : db.WellFormed) (a : ClaimArgs) (now : Int) :
    CallOutcome db (.claim a now) (perform db (.claim a now)).1 (perform db (.claim a now)).2 := by
  have hkept := claimDispatchAdmittedLed_refused a now db
  simp only [perform]
  cases heq : claimDispatchAdmittedLed a now db with
  | mk answer db' =>
    rw [heq] at hkept
    cases answer with
    | error e =>
      rcases hkept with ⟨_, _, hok⟩ | rfl
      · cases hok
      · exact .refused
    | ok decision =>
      cases decision with
      | error refusal =>
        rcases hkept with ⟨_, _, hok⟩ | rfl
        · cases hok
        · exact .refused
      | ok id =>
        obtain ⟨hgrant, x, hx⟩ := claimDispatchAdmittedLed_ok hdb heq
        exact .claimed a now id x db' rfl hgrant hx

theorem resume_outcome {db : Db} (hdb : db.WellFormed) (a : ResumeArgs) (now : Int) :
    CallOutcome db (.resume a now) (perform db (.resume a now)).1
      (perform db (.resume a now)).2 := by
  have hkept := claimResumeDispatchLed_refused a now db
  simp only [perform]
  cases heq : claimResumeDispatchLed a now db with
  | mk answer db' =>
    rw [heq] at hkept
    cases answer with
    | error e =>
      rcases hkept with ⟨_, _, hok⟩ | rfl
      · cases hok
      · exact .refused
    | ok decision =>
      cases decision with
      | error refusal =>
        rcases hkept with ⟨_, _, hok⟩ | rfl
        · cases hok
        · exact .refused
      | ok id =>
        obtain ⟨source, db1, x, hsource, hclosed, hgrant, hx⟩ := claimResumeDispatchLed_ok hdb heq
        exact .resumed a now id source x db1 db' rfl hsource hclosed hgrant hx

/-- A change that leaves an active row in its stage, with any status. -/
theorem aged_of_active {r r' : AgentDispatch} (hr : r.status.isActive = true)
    (hstage : r'.stage = r.stage) (hscope : SameScope r r') : Aged r r' :=
  ⟨hstage, fun _ => hr, hscope⟩

/-- A change that leaves the status. -/
theorem aged_of_status {r r' : AgentDispatch} (hstatus : r'.status = r.status)
    (hstage : r'.stage = r.stage) (hscope : SameScope r r') : Aged r r' :=
  ⟨hstage, fun h => hstatus ▸ h, hscope⟩

theorem not_accepted {a : Except DispatchError Bool} (ha : a ≠ .ok true) :
    decide (a.toOption = some true) = false := by
  rcases a with e | ⟨_ | _⟩
  · rfl
  · rfl
  · exact absurd rfl ha

theorem cas_outcome {db : Db} (hdb : db.WellFormed) {call : DispatchCall} (hcall : call.new? = none)
    (id : Int) (fence : Option DispatchRunRef)
    {expected : AgentDispatchStatus} (status : AgentDispatchStatus) (note : Option Text) (now : Int)
    (hactive : expected.isActive = true) :
    CallOutcome db call
      (decide ((casDispatchStatus id fence expected status note now db).1.toOption = some true))
      (casDispatchStatus id fence expected status note now db).2 := by
  rcases casDispatchStatus_cases hdb id fence expected status note now with
    ⟨a, ha, heq⟩ | ⟨r, db', -, hr, -, heq, hch⟩
  · rw [heq, not_accepted ha]
    exact .refused
  · rw [heq]
    exact .changed r _ db' hcall hch (aged_of_active (hr ▸ hactive) rfl ⟨rfl, rfl, rfl, rfl⟩)

theorem park_outcome {db : Db} (hdb : db.WellFormed) {call : DispatchCall}
    (hcall : call.new? = none) (id : Int) (cond : AgentDispatch → Bool)
    (f : Text → AgentDispatch → AgentDispatch) (note : Text) (hid : ∀ n r, (f n r).id = r.id)
    (haged : ∀ n r, cond r = true → Aged r (f n r)) :
    CallOutcome db call (decide ((parkWhere id cond f note db).1.toOption = some true))
      (parkWhere id cond f note db).2 := by
  rcases parkWhere_cases hdb id cond f hid note with ⟨a, ha, heq⟩ | ⟨r, db', n, -, hcond, heq, hch⟩
  · rw [heq, not_accepted ha]
    exact .refused
  · rw [heq]
    exact .changed r _ db' hcall hch (haged n r hcond)

theorem perform_outcome {db : Db} (hdb : db.WellFormed) {call : DispatchCall}
    (hp : ExpectsActive call) : CallOutcome db call (perform db call).1 (perform db call).2 := by
  cases call with
  | claim a now => exact claim_outcome hdb a now
  | resume a now => exact resume_outcome hdb a now
  | setStatus id expected target note proof now =>
    simp only [perform]
    rcases setDispatchStatusLed_cases hdb id expected target note proof now with
      ⟨e, heq⟩ | ⟨r, db', hallowed, heq, hch⟩
    · rw [heq]
      exact .refused
    · rw [heq]
      exact .changed r _ db' rfl hch ⟨rfl, setStatus_aged hallowed, ⟨rfl, rfl, rfl, rfl⟩⟩
  | setStatusForced id expected target reason proof now =>
    simp only [perform]
    rcases setDispatchStatusForcedLed_cases hdb id expected target reason proof now with
      ⟨e, heq⟩ | ⟨r, r', db', hdone, hstage, hscope, heq, hch⟩
    · rw [heq]
      exact .refused
    · rw [heq]
      refine .changed r r' db' rfl hch ⟨hstage, fun h => ?_, hscope⟩
      rw [hdone] at h
      cases h
  | publish id sessionId artifactPath =>
    simp only [perform]
    rcases publishDispatchRun_cases hdb id sessionId artifactPath with ⟨o, ho, heq⟩
      | ⟨r, db', -, hr, heq, hch⟩
    · rw [heq, decide_eq_false ho]
      exact .refused
    · rw [heq]
      have hactive : r.status.isActive = true := by
        rcases hr with hr | hr
        · rw [hr]
          rfl
        · rw [hr]
          rfl
      exact .changed r _ db' rfl hch (aged_of_active hactive rfl ⟨rfl, rfl, rfl, rfl⟩)
  | bind id sessionId =>
    simp only [perform]
    rcases bindDispatchSession_cases hdb id sessionId with heq | ⟨r, db', -, -, -, -, heq, hch⟩
    · rw [heq]
      exact .refused
    · rw [heq]
      exact .changed r _ db' rfl hch (aged_of_status rfl rfl ⟨rfl, rfl, rfl, rfl⟩)
  | stampExit run exitCode now =>
    simp only [perform]
    rcases stampDispatchExit_cases hdb run exitCode now with
      ⟨r, db', -, -, -, heq, hch⟩ | ⟨r, -, -, -, heq⟩ | ⟨heq | heq, -⟩
    · rw [heq]
      exact .changed r _ db' rfl hch (aged_of_status rfl rfl ⟨rfl, rfl, rfl, rfl⟩)
    · rw [heq]
      exact .refused
    · rw [heq]
      exact .refused
    · rw [heq]
      exact .refused
  | casStatus id expected status note now => exact cas_outcome hdb rfl id none status note now hp
  | casStatusRun run expected status note now =>
    exact cas_outcome hdb rfl run.id (some run) status note now hp
  | park id expected note =>
    refine park_outcome hdb rfl id _ AgentDispatch.parked note (fun _ _ => rfl) (fun n r hr => ?_)
    exact aged_of_active (of_decide_eq_true hr ▸ hp) rfl ⟨rfl, rfl, rfl, rfl⟩
  | parkRun run expected note =>
    refine park_outcome hdb rfl run.id _ AgentDispatch.parked note (fun _ _ => rfl)
      (fun n r hr => ?_)
    rw [Bool.and_eq_true, decide_eq_true_eq] at hr
    exact aged_of_active (hr.1 ▸ hp) rfl ⟨rfl, rfl, rfl, rfl⟩
  | settleRun run expected note =>
    refine park_outcome hdb rfl run.id _ (AgentDispatch.settled run.runGen) note (fun _ _ => rfl)
      (fun n r hr => ?_)
    rw [Bool.and_eq_true, decide_eq_true_eq] at hr
    exact aged_of_active (hr.1 ▸ hp) rfl ⟨rfl, rfl, rfl, rfl⟩
  | retryRun id expected sessionId artifactPath =>
    simp only [perform]
    rcases compareAndSetDispatchRetryRun_cases hdb id expected sessionId artifactPath with
      heq | ⟨r, db', -, hr, heq, hch⟩
    · rw [heq]
      exact .refused
    · rw [heq]
      exact .changed r _ db' rfl hch (aged_of_active (hr ▸ hp) rfl ⟨rfl, rfl, rfl, rfl⟩)
  | count run failureClass =>
    simp only [perform]
    rcases countDispatchRetryAttemptRun_cases hdb run failureClass with heq
      | ⟨r, db', n, -, -, -, heq, hch⟩
    · rw [heq]
      exact .refused
    · rw [heq]
      exact .changed r _ db' rfl hch (aged_of_status rfl rfl ⟨rfl, rfl, rfl, rfl⟩)
  | setNative run nativeSessionId =>
    simp only [perform]
    rcases setDispatchNativeSession_cases hdb run nativeSessionId with heq
      | ⟨r, db', -, -, -, heq, hch⟩
    · rw [heq]
      exact .refused
    · rw [heq]
      exact .changed r _ db' rfl hch (aged_of_status rfl rfl ⟨rfl, rfl, rfl, rfl⟩)
  | leases leases => exact .leases leases rfl

/-! ## Occupied slots -/

variable {db db' : Db} {r r' x : AgentDispatch}

def occupancy (db : Db) (stage : Text) : Nat :=
  db.rows.countP fun r => occupies r && inStage stage r

theorem Aged.occupies (h : Aged r r') {stage : Text}
    (hr' : (Dispatch.occupies r' && inStage stage r') = true) :
    (Dispatch.occupies r && inStage stage r) = true := by
  rw [Bool.and_eq_true] at hr' ⊢
  refine ⟨h.active hr'.1, ?_⟩
  have hstage := hr'.2
  unfold inStage at hstage ⊢
  rwa [h.stage] at hstage

theorem Changes.occupancy_le (h : Changes db db' r r') (hdb : db.WellFormed) (haged : Aged r r')
    (stage : Text) : occupancy db' stage ≤ occupancy db stage := by
  unfold occupancy
  rw [h.rows, countP_map]
  refine countP_mono_left (fun x hx hcount => ?_)
  dsimp only [Function.comp_apply] at hcount
  split_ifs at hcount with hid
  · rw [Rows.eq_of_key hdb.nodup hx h.mem hid]
    exact haged.occupies hcount
  · exact hcount

theorem Appends.occupancy (h : Appends db db' x) (stage : Text) :
    occupancy db' stage = occupancy db stage + if Dispatch.occupies x &&
      inStage stage x then 1 else 0 := by
  unfold Dispatch.occupancy
  rw [h.rows, countP_append, countP_singleton]

/-- The slots are counted on the rows that a claim reads, which miss none that is occupied. -/
theorem count_admissionRows (db : Db) (issueId worktreePath stage : Text) :
    ((admissionRows db issueId worktreePath).filter fun r => occupies r && inStage stage r).length =
      occupancy db stage := by
  have hperm : (rosterRows db).Perm db.rows := (reverse_perm _).trans (Rows.sortOn_perm _ _)
  unfold admissionRows occupancy
  rw [filter_filter, ← countP_eq_length_filter, ← hperm.countP_eq]
  refine countP_congr (fun r _ => ?_)
  simp only [occupies, Bool.and_eq_true, Bool.or_eq_true]
  tauto

/-- A grant leaves room for one row. -/
theorem decide_grant_lt {rows : List AgentDispatch} {req : ClaimRequest} {limit : Nat} {dup : Bool}
    (h : decideAllowingDuplicate rows req limit dup = .grant) :
    (rows.filter fun r => occupies r && inStage req.stage r).length < limit := by
  unfold decideAllowingDuplicate at h
  split at h
  · cases h
  · dsimp only at h
    split_ifs at h with hfull
    exact Nat.lt_of_not_le hfull

theorem admission_granted {new : NewDispatch} {limit : Nat} {dup overridden : Bool}
    {prepared : Option PreparedChunkAdmission} {rows : List AgentDispatch}
    (h : admission new limit dup prepared overridden rows = .ok none) :
    chunkGate new prepared overridden rows = .ok () ∧
    decideAllowingDuplicate rows new.request limit dup = .grant := by
  unfold admission at h
  cases hgate : chunkGate new prepared overridden rows with
  | error stop =>
    rw [hgate] at h
    cases stop with
    | refused reason => cases h
    | failed e => cases h
  | ok u =>
    rw [hgate] at h
    dsimp only at h
    split_ifs at h with hgranted
    · exact ⟨rfl, ClaimDecision.eq_grant hgranted⟩
    · cases h

/-- The capacity of every stage is kept. -/
def Within (limit : Text → Nat) (db : Db) : Prop := ∀ stage, occupancy db stage ≤ limit (trim stage)

/-- An insertion after a grant. -/
theorem Inserted.within {limit : Text → Nat} {new : NewDispatch} {scope : Option Text} {id : Int}
    {bound : Nat} {dup : Bool}
    (hx : Inserted db db' new scope id x)
    (hbound : ∀ stage, new.stage = some stage → bound = limit (trim stage))
    (hgrant : decideAllowingDuplicate (admissionRows db new.issueId new.worktreePath) new.request
      bound dup = .grant)
    (h : Within limit db) : Within limit db' := by
  intro stage
  rw [hx.appends.occupancy]
  split_ifs with hnew
  · -- the new row is in this stage, which had room
    rw [Bool.and_eq_true] at hnew
    have hin := of_decide_eq_true hnew.2
    rw [hx.admitted.stage] at hin
    obtain ⟨own, hown, htrim⟩ := Option.map_eq_some_iff.mp hin
    have hlt := decide_grant_lt hgrant
    have hreq : new.request.stage = own := by
      change new.stage.getD [] = own
      rw [hown]
      rfl
    have hsame : inStage own = inStage stage := by
      funext r
      unfold inStage
      rw [htrim]
    rw [hreq, hsame, count_admissionRows, hbound own hown, htrim] at hlt
    exact hlt
  · exact h stage

/-- **One call keeps every stage within its capacity.** -/
theorem perform_within {limit : Text → Nat} (hdb : db.WellFormed) {call : DispatchCall}
    (hp : Proper limit call)
    (h : Within limit db) : (perform db call).2.WellFormed ∧ Within limit (perform db call).2 := by
  generalize hdb' : (perform db call).2 = db'
  have hout := perform_outcome hdb hp.1
  rw [hdb'] at hout
  generalize (perform db call).1 = accepted at hout
  cases hout with
  | refused => exact ⟨hdb, h⟩
  | leases leases hcall => exact ⟨⟨hdb.nodup, hdb.le_last⟩, h⟩
  | changed r r' _ hcall hch hr' =>
    exact ⟨hch.wellFormed hdb, fun stage => (hch.occupancy_le hdb hr' stage).trans (h stage)⟩
  | claimed a now id x _ hcall hgrant hx =>
    subst hcall
    exact ⟨hx.appends.wellFormed hdb, hx.within hp.2 (admission_granted hgrant).2 h⟩
  | resumed a now id source x db1 _ hcall hsource hclosed hgrant hx =>
    subst hcall
    have hbase : db1.WellFormed ∧ Within limit db1 := by
      rcases hclosed with ⟨hactive, hch⟩ | ⟨-, rfl⟩
      · have haged : Aged source { source with status := .failed } :=
          aged_of_active hactive rfl ⟨rfl, rfl, rfl, rfl⟩
        exact ⟨hch.wellFormed hdb, fun stage => (hch.occupancy_le hdb haged stage).trans (h stage)⟩
      · exact ⟨hdb, h⟩
    exact ⟨hx.appends.wellFormed hbase.1, hx.within hp.2 hgrant hbase.2⟩

theorem Runs.within {limit : Text → Nat} (h : Runs limit db db') (hdb : db.WellFormed)
    (hwithin : Within limit db) : db'.WellFormed ∧ Within limit db' := by
  induction h with
  | refl => exact ⟨hdb, hwithin⟩
  | step call _ hp ih => exact perform_within ih.1 hp ih.2

/-! ## Terminal rows -/

/-- The row `k` is there, with a terminal status. -/
def Closed (db : Db) (k : Int) : Prop := ∃ r, db.getDispatch k = some r ∧ r.status.isActive = false

theorem Changes.closed (h : Changes db db' r r') (hdb : db.WellFormed) (haged : Aged r r') {k : Int}
    (hk : Closed db k) : Closed db' k := by
  obtain ⟨x, hx, hterminal⟩ := hk
  unfold Closed
  rw [h.getDispatch hdb]
  split_ifs with hid
  · refine ⟨r', rfl, Bool.eq_false_iff.mpr fun hactive => ?_⟩
    rw [hid, hdb.getDispatch_of_mem h.mem] at hx
    cases hx
    rw [haged.active hactive] at hterminal
    cases hterminal
  · exact ⟨x, hx, hterminal⟩

theorem Appends.closed (h : Appends db db' x) {k : Int} (hk : Closed db k) : Closed db' k := by
  obtain ⟨r, hr, hterminal⟩ := hk
  refine ⟨r, ?_, hterminal⟩
  unfold Db.getDispatch at hr ⊢
  rw [h.rows, List.find?_append, hr]
  rfl

theorem perform_closed {limit : Text → Nat} (hdb : db.WellFormed) {call : DispatchCall}
    (hp : Proper limit call) {k : Int} (hk : Closed db k) : Closed (perform db call).2 k := by
  generalize hdb' : (perform db call).2 = db'
  have hout := perform_outcome hdb hp.1
  rw [hdb'] at hout
  generalize (perform db call).1 = accepted at hout
  cases hout with
  | refused => exact hk
  | leases leases hcall => exact hk
  | changed r r' _ hcall hch hr' => exact hch.closed hdb hr' hk
  | claimed a now id x _ hcall hgrant hx => exact hx.appends.closed hk
  | resumed a now id source x db1 _ hcall hsource hclosed hgrant hx =>
    rcases hclosed with ⟨hactive, hch⟩ | ⟨-, rfl⟩
    · exact hx.appends.closed (hch.closed hdb (aged_of_active hactive rfl ⟨rfl, rfl, rfl, rfl⟩) hk)
    · exact hx.appends.closed hk

theorem Runs.closed {limit : Text → Nat} (h : Runs limit db db') (hdb : db.WellFormed)
    (hwithin : Within limit db) {k : Int} (hk : Closed db k) : Closed db' k := by
  induction h with
  | refl => exact hk
  | step call hruns hp ih => exact perform_closed (hruns.within hdb hwithin).1 hp ih

theorem within_empty (limit : Text → Nat) (leases : Lease.Db) : Within limit (Db.empty leases) :=
  fun _ => Nat.zero_le _

/-- **Stages keep their capacity** in every run from an empty roster; no terminal row becomes active
again; and a call that is not accepted leaves the rows and the notes. -/
theorem stages_keep_capacity (limit : Text → Nat) (leases : Lease.Db) {db : Db}
    (h : Runs limit (Db.empty leases) db) :
    (∀ stage, occupancy db stage ≤ limit (trim stage)) ∧
      (∀ db', Runs limit db db' → ∀ k r, db.getDispatch k = some r → r.status.isActive = false →
        ∃ r', db'.getDispatch k = some r' ∧ r'.status.isActive = false) ∧
      ∀ call, Proper limit call → (perform db call).1 = false →
        (perform db call).2.rows = db.rows ∧ (perform db call).2.notes = db.notes := by
  obtain ⟨hdb, hwithin⟩ := h.within (Db.wellFormed_empty leases) (within_empty limit leases)
  refine ⟨hwithin, fun db' hruns k r hr hterminal =>
    hruns.closed hdb hwithin ⟨r, hr, hterminal⟩, ?_⟩
  intro call hp hrefused
  have hout := perform_outcome hdb hp.1
  rw [hrefused] at hout
  generalize (perform db call).2 = db' at hout
  cases hout with
  | refused => exact ⟨rfl, rfl⟩

/-- A claim of the stage `s`. -/
def stageClaim (issue : Text) : ClaimArgs where
  new := ⟨issue, ['w'], ['a'], some ['s'], none, none, none, none⟩
  limit := 1
  allowDuplicate := none
  prepared := none
  allowScope := none
  proof := .unbound

/-- The stage is claimed. -/
def stageClaimed : Db := (perform (Db.empty ⟨∅, some 0⟩) (.claim (stageClaim ['X']) 0)).2

/-- The second claim of a stage with one slot is refused. -/
theorem stages_keep_capacity_sample :
    occupancy stageClaimed ['s'] = 1 ∧ occupancy stageClaimed ['s'] ≤ 1 ∧
      (perform stageClaimed (.claim (stageClaim ['Y']) 1)).2.rows = stageClaimed.rows := by
  have hp : ∀ issue now, Proper (fun _ => 1) (.claim (stageClaim issue) now) :=
    fun _ _ => ⟨trivial, fun _ _ => rfl⟩
  have hruns : Runs (fun _ => 1) (Db.empty ⟨∅, some 0⟩) stageClaimed := .step _ (.refl _) (hp _ _)
  obtain ⟨hwithin, -, hrefused⟩ := stages_keep_capacity (fun _ => 1) ⟨∅, some 0⟩ hruns
  refine ⟨by decide +kernel, hwithin ['s'], (hrefused _ (hp _ _) ?_).1⟩
  decide +kernel

end Thegn.Dispatch
