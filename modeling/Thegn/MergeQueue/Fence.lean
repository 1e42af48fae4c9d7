import Thegn.MergeQueue.World

set_option autoImplicit false

/-! # Claims on a merge-queue row are fenced leases

What an operation can do to the row is said once for each of three kinds: an admission
(`admission_cases`), a write under a claim (`claim_write_cases`), and everything else (`Quiet`). The
invariant, the protection of a claimed row and the growth of the generation follow from these.
-/

namespace Thegn.MergeQueue

open Text Run List

/-- An update changes nothing, or the row. -/
theorem updateRow_cases (row : Option MergeRow) (cond : MergeRow → Bool) (f : MergeRow → MergeRow) :
    updateRow row cond f = (row, 0)
      ∨ ∃ r, row = some r ∧ cond r = true ∧ updateRow row cond f = (some (f r), 1) := by
  cases row with
  | none => exact .inl rfl
  | some r =>
    by_cases hc : cond r = true
    · exact .inr ⟨r, rfl, hc, by simp only [updateRow, hc, if_true]⟩
    · exact .inl (if_neg hc)

/-! ## Operations without a claim -/

/-- A landed row has a result. -/
def LandedOk (row : MergeRow) : Prop := row.status = "landed".toList → nonempty row.resultOid = true

/-- The claim columns that fence are kept. -/
structure ClaimKept (row row' : MergeRow) : Prop where
  owner : row'.claimOwner = row.claimOwner
  generation : row'.claimGeneration = row.claimGeneration
  phase : row'.claimPhase = row.claimPhase
  lease : row'.claimLeaseUntilMs = row.claimLeaseUntilMs

/-- What a drain works on is the same. -/
structure WorkKept (row row' : MergeRow) : Prop where
  status : row'.status = row.status
  branch : row'.branch = row.branch
  targetBranch : row'.targetBranch = row.targetBranch
  agentAttempts : row'.agentAttempts = row.agentAttempts

/-- The row is landed and its lease ran out. -/
def MergeRow.expiredLanded (row : MergeRow) (nowMs : Int) : Prop :=
  row.status = "landed".toList ∧ ∃ stop, row.claimLeaseUntilMs = some stop ∧ stop < nowMs

/-- What an operation that is called without a claim and admits none can do to the row. If it
`reaps`, it may first release the claim of a landed row that ran out. -/
inductive Quiet (reaps : Bool) (nowMs : Int) (limit : Nat) :
    Option MergeRow → Option MergeRow → Prop
  | keep (row : Option MergeRow) : Quiet reaps nowMs limit row row
  | create {new : MergeRow} (owner : new.claimOwner = none) (phase : new.claimPhase = .unclaimed)
      (lease : new.claimLeaseUntilMs = none) (attempts : new.agentAttempts = 0)
      (landed : LandedOk new) : Quiet reaps nowMs limit none (some new)
  | swap {row row' : MergeRow} (kept : ClaimKept row row') (work : WorkKept row row')
      (landed : LandedOk row → LandedOk row') : Quiet reaps nowMs limit (some row) (some row')
  | write {row row' : MergeRow} (free : row.claimOwner = none) (kept : ClaimKept row row')
      (attempts : row'.agentAttempts = row.agentAttempts ∨ row'.agentAttempts ≤ limit)
      (landed : LandedOk row → LandedOk row') : Quiet reaps nowMs limit (some row) (some row')
  | delete {row : MergeRow} (free : row.claimOwner = none) : Quiet reaps nowMs limit (some row) none
  | expire {row : MergeRow} (expired : row.expiredLanded nowMs) :
      Quiet reaps nowMs limit (some row) (some row.unclaim)
  | reap {row : MergeRow} {next : Option MergeRow} (may : reaps = true)
      (expired : row.expiredLanded nowMs)
      (rest : Quiet reaps nowMs limit (some row.unclaim) next) :
      Quiet reaps nowMs limit (some row) next

section

variable {reaps : Bool} {nowMs : Int} {limit : Nat}

/-- An update of an unclaimed row. -/
theorem Quiet.of_updateRow {row : Option MergeRow} {f : MergeRow → MergeRow}
    (hkept : ∀ r, ClaimKept r (f r))
    (hattempts : ∀ r, (f r).agentAttempts = r.agentAttempts ∨ (f r).agentAttempts ≤ limit)
    (hlanded : ∀ r, row = some r → LandedOk r → LandedOk (f r)) :
    Quiet reaps nowMs limit row (updateRow row (fun r => r.claimOwner.isNone) f).1 := by
  unfold updateRow
  cases row with
  | none => exact .keep none
  | some r =>
    dsimp only
    split_ifs with hfree
    · exact .write (Option.isNone_iff_eq_none.mp hfree) (hkept r) (hattempts r) (hlanded r rfl)
    · exact .keep _

/-- A compare and swap that leaves claim and work alone. -/
theorem Quiet.of_swap {row : Option MergeRow} {cond : MergeRow → Bool} {f : MergeRow → MergeRow}
    (hkept : ∀ r, ClaimKept r (f r)) (hwork : ∀ r, WorkKept r (f r))
    (hlanded : ∀ r, LandedOk r → LandedOk (f r)) :
    Quiet reaps nowMs limit row (updateRow row cond f).1 := by
  unfold updateRow
  cases row with
  | none => exact .keep none
  | some r =>
    dsimp only
    split_ifs
    · exact .swap (hkept r) (hwork r) (hlanded r)
    · exact .keep _

theorem Quiet.of_upsertRow {row : Option MergeRow} {new : MergeRow} {f : MergeRow → MergeRow}
    (howner : new.claimOwner = none) (hphase : new.claimPhase = .unclaimed)
    (hlease : new.claimLeaseUntilMs = none) (hzero : new.agentAttempts = 0) (hnew : LandedOk new)
    (hkept : ∀ r, ClaimKept r (f r))
    (hattempts : ∀ r, (f r).agentAttempts = r.agentAttempts ∨ (f r).agentAttempts ≤ limit)
    (hlanded : ∀ r, LandedOk r → LandedOk (f r)) :
    Quiet reaps nowMs limit row (upsertRow row new f).1 := by
  unfold upsertRow
  cases row with
  | none => exact .create howner hphase hlease hzero hnew
  | some r =>
    dsimp only
    split_ifs with hfree
    · exact .write (Option.isNone_iff_eq_none.mp hfree) (hkept r) (hattempts r) (hlanded r)
    · exact .keep _

theorem reapExpiredLandedClaim_cases (row : Option MergeRow) (nowMs : Int) :
    (reapExpiredLandedClaim row nowMs).1 = row ∨ ∃ r, row = some r ∧ r.expiredLanded nowMs
          ∧ (reapExpiredLandedClaim row nowMs).1 = some r.unclaim := by
  unfold reapExpiredLandedClaim
  rcases updateRow_cases row (fun r => decide (r.status = "landed".toList) && r.claimOwner.isSome
      && r.claimLeaseUntilMs.any fun stop => stop < nowMs) MergeRow.unclaim
    with heq | ⟨r, hr, hcond, heq⟩
  · rw [heq]
    exact .inl rfl
  · rw [heq]
    simp only [Bool.and_eq_true, decide_eq_true_eq, Option.any_eq_true] at hcond
    obtain ⟨⟨hlanded, _⟩, stop, hstop, hlt⟩ := hcond
    exact .inr ⟨r, hr, ⟨hlanded, stop, hstop, hlt⟩, rfl⟩

/-- What follows the release of an expired landed claim. -/
theorem Quiet.after_reap {row next : Option MergeRow}
    (h : Quiet true nowMs limit (reapExpiredLandedClaim row nowMs).1 next) :
    Quiet true nowMs limit row next := by
  rcases reapExpiredLandedClaim_cases row nowMs with heq | ⟨r, rfl, hexpired, heq⟩
  · rwa [heq] at h
  · rw [heq] at h
    exact .reap rfl hexpired h

theorem quiet_upsertQueued (row : Option MergeRow) (env : Env) (branch target : Text)
    (location : Option Text) (candidate : Option MergeCandidate)
    (identity : Option MergeEnqueueIdentity) :
    Quiet true env.nowMs limit row
      (upsertQueued row env branch target location candidate identity).1 := by
  unfold upsertQueued
  refine .after_reap (.of_upsertRow rfl rfl rfl rfl ?_ (fun r => ⟨rfl, rfl, rfl, rfl⟩) ?_ ?_)
  · intro h
    simp at h
  · intro r
    dsimp only
    split_ifs
    · exact .inl rfl
    · exact .inr (Int.natCast_nonneg _)
  · intro r _ h
    simp at h

theorem quiet_removeMergeEntryAs (db : MergeDb) (env : Env) (actor : Text) :
    Quiet true env.nowMs limit db.row (removeMergeEntryAs db env actor).1.row := by
  refine .after_reap ?_
  unfold removeMergeEntryAs
  cases hrow : (reapExpiredLandedClaim db.row env.nowMs).1 with
  | none =>
    have hnone : db.row = none := by
      rcases reapExpiredLandedClaim_cases db.row env.nowMs with heq | ⟨r, _, _, heq⟩
      · rwa [heq] at hrow
      · rw [heq] at hrow
        cases hrow
    dsimp only
    rw [hnone]
    exact .keep none
  | some row =>
    dsimp only
    split_ifs with howner
    · exact .keep _
    · rw [Bool.not_eq_true, Option.isSome_eq_false_iff, Option.isNone_iff_eq_none] at howner
      exact .delete howner

theorem quiet_delWorktree (db : MergeDb) (env : Env) :
    Quiet true env.nowMs limit db.row (delWorktree db env).row := by
  refine .after_reap ?_
  unfold delWorktree
  cases (reapExpiredLandedClaim db.row env.nowMs).1 with
  | none => exact .keep none
  | some row =>
    dsimp only
    split_ifs with hdel
    · exact .delete (Option.isNone_iff_eq_none.mp hdel.1)
    · exact .keep _

theorem quiet_replaceMergeStatus (db : MergeDb) (env : Env) (status : Text)
    (fields : MergeStatusFields) :
    Quiet reaps env.nowMs limit db.row (replaceMergeStatus db env status fields).1.row := by
  unfold replaceMergeStatus
  split
  · exact .keep _
  · split_ifs with hlanded
    · exact .keep _
    · dsimp only
      split
      · exact .keep _
      · split_ifs
        · exact .keep _
        · refine .of_updateRow (fun r => ⟨rfl, rfl, rfl, rfl⟩) (fun r => .inl rfl) ?_
          intro r _ _ hst
          exact Bool.not_eq_false _ ▸ fun hne => hlanded ⟨hst, hne⟩

theorem quiet_updateMergeStatus (db : MergeDb) (env : Env) (status : Text)
    (result conflicts detail : Option Text) :
    Quiet reaps env.nowMs limit db.row
      (updateMergeStatus db env status result conflicts detail).1.row := by
  unfold updateMergeStatus
  split
  · exact .keep _
  · split_ifs with hlanded
    · exact .keep _
    · refine .of_updateRow (fun r => ⟨rfl, rfl, rfl, rfl⟩) (fun r => .inl rfl) ?_
      intro r hrow _ hst
      rw [not_and] at hlanded
      have hresult := (not_or.mp (hlanded hst)).2
      rw [hrow, Option.bind_some, Bool.not_eq_false] at hresult
      exact hresult

theorem quiet_retryHeldMergeEntry (db : MergeDb) (env : Env) :
    Quiet reaps env.nowMs limit db.row (retryHeldMergeEntry db env).1.row := by
  unfold retryHeldMergeEntry
  cases hrow : db.row with
  | none =>
    dsimp only
    rw [hrow]
    exact .keep none
  | some row =>
    dsimp only
    split_ifs with howner hheld
    · exact hrow ▸ .keep _
    · exact hrow ▸ .keep _
    · rw [Bool.not_eq_true, Option.isSome_eq_false_iff, Option.isNone_iff_eq_none] at howner
      refine .write howner ⟨rfl, rfl, rfl, rfl⟩ (.inr (Int.natCast_nonneg _)) ?_
      intro _ h
      simp [MergeRow.rearm] at h

theorem quiet_markCleanup (db : MergeDb) (seen : MergeQueueRow) (marker : Text) :
    Quiet reaps nowMs limit db.row (markCleanup db seen marker).1.row := by
  unfold markCleanup
  split_ifs
  · exact .keep _
  · exact .of_swap (fun r => ⟨rfl, rfl, rfl, rfl⟩) (fun r => ⟨rfl, rfl, rfl, rfl⟩) fun r h => h

theorem quiet_backfillLandedResultOid (db : MergeDb) (expected : MergeQueueRow) (oid : Text) :
    Quiet reaps nowMs limit db.row (backfillLandedResultOid db expected oid).1.row := by
  unfold backfillLandedResultOid
  split_ifs with hempty
  · exact .keep _
  · exact .keep _
  · refine .of_swap (fun r => ⟨rfl, rfl, rfl, rfl⟩) (fun r => ⟨rfl, rfl, rfl, rfl⟩) ?_
    intro r _ _
    simpa [nonempty] using hempty

theorem validateMergeOutcome_ok {observed : MergeOutcomeObservation} {outcome : MergeFinalOutcome}
    (h : validateMergeOutcome observed outcome = .ok ()) (hlanded : outcome.status = .landed) :
    nonempty outcome.resultOid = true := by
  unfold validateMergeOutcome at h
  split_ifs at h with _ _ _ _ hresult
  all_goals simp_all

/-- A branch that changes nothing is quiet. -/
theorem keep_or {α : Type} {db : MergeDb} {c : Prop} [Decidable c] {a : α} {e : MergeDb × α}
    (h : Quiet reaps nowMs limit db.row e.1.row) :
    Quiet reaps nowMs limit db.row (if c then (db, a) else e).1.row := by
  split_ifs
  · exact .keep _
  · exact h

theorem quiet_persistMergeOutcome (db : MergeDb) (env : Env) (observed : MergeOutcomeObservation)
    (outcome : MergeFinalOutcome) :
    Quiet reaps env.nowMs limit db.row (persistMergeOutcome db env observed outcome).1.row := by
  unfold persistMergeOutcome
  cases hok : validateMergeOutcome observed outcome with
  | error e => exact .keep _
  | ok _ =>
    -- the status is landed only with a result
    have hlanded : outcome.status.asStr = "landed".toList → nonempty outcome.resultOid = true := by
      intro hst
      refine validateMergeOutcome_ok hok ?_
      cases hstatus : outcome.status <;> rw [hstatus] at hst <;> first | rfl | cases hst
    dsimp only
    refine keep_or (keep_or (keep_or (keep_or (keep_or ?_))))
    have hup : ∀ location, Quiet reaps env.nowMs limit db.row (upsertRow db.row
        { newRow outcome.branch outcome.targetBranch outcome.status.asStr env.now location with
          resultOid := outcome.resultOid, conflictPaths := outcome.conflictPaths
          errorDetail := outcome.errorDetail }
        fun row => { row with
          branch := outcome.branch, targetBranch := outcome.targetBranch
          status := outcome.status.asStr, updatedAt := env.now, resultOid := outcome.resultOid
          conflictPaths := outcome.conflictPaths, landedSourceOid := none
          landedTargetBaseOid := none, errorDetail := outcome.errorDetail, location }).1 := by
      intro location
      exact .of_upsertRow rfl rfl rfl rfl hlanded (fun r => ⟨rfl, rfl, rfl, rfl⟩)
        (fun r => .inl rfl) fun r _ => hlanded
    split_ifs
    all_goals exact hup _

/-- Every operation that is called without a claim and admits none is quiet. -/
theorem quiet_apply (op : MergeOp) (db : MergeDb) (env : Env) (hclaim : op.claim = none)
    (htoken : op.token = none) :
    Quiet op.reaps env.nowMs (op.limit db env limit) db.row (op.apply db env).row := by
  cases op with
  | enqueue branch target => exact quiet_upsertQueued ..
  | enqueueCandidate branch target candidate =>
    unfold MergeOp.apply enqueueMergeCandidate
    dsimp only
    split
    · exact .keep _
    · exact quiet_upsertQueued ..
  | enqueueCandidateWithIdentity branch target candidate identity =>
    unfold MergeOp.apply enqueueMergeCandidateWithIdentity
    dsimp only
    split
    · exact .keep _
    · split_ifs
      · exact .keep _
      · exact quiet_upsertQueued ..
  | enqueueIfWorktreeMatches branch repoRoot location target =>
    unfold MergeOp.apply enqueueMergeIfWorktreeMatches
    dsimp only
    split_ifs
    · exact .keep _
    · exact .keep _
    · exact quiet_upsertQueued ..
  | remove => exact quiet_removeMergeEntryAs ..
  | removeAs actor => exact quiet_removeMergeEntryAs ..
  | delWorktree => exact quiet_delWorktree ..
  | reapExpiredLanded =>
    unfold MergeOp.apply
    dsimp only
    rcases reapExpiredLandedClaim_cases db.row env.nowMs with heq | ⟨r, hr, hexpired, heq⟩
    · rw [heq]
      exact .keep _
    · rw [heq, hr]
      exact .expire hexpired
  | replaceStatus status fields => exact quiet_replaceMergeStatus ..
  | updateStatus status result conflicts detail => exact quiet_updateMergeStatus ..
  | setTarget target =>
    exact .of_updateRow (fun r => ⟨rfl, rfl, rfl, rfl⟩) (fun r => .inl rfl) fun r _ h => h
  | setAgentAttempts attempts =>
    unfold MergeOp.apply MergeOp.limit setMergeAgentAttempts writeUnclaimed updateRow
    cases db.row with
    | none => exact .keep none
    | some r =>
      dsimp only [Option.any_some]
      split_ifs with hfree
      · exact .write (Option.isNone_iff_eq_none.mp hfree) ⟨rfl, rfl, rfl, rfl⟩ (.inr le_rfl)
          fun h => h
      · exact .keep _
  | retry =>
    refine .of_updateRow (fun r => ⟨rfl, rfl, rfl, rfl⟩) (fun r => .inr (Int.natCast_nonneg _)) ?_
    intro r _ _ h
    simp [MergeRow.rearm] at h
  | retryHeld => exact quiet_retryHeldMergeEntry ..
  | recordRefusal operation outcome =>
    unfold MergeOp.apply recordMergeRefusal
    dsimp only
    split
    · exact .keep _
    · exact .keep _
  | adoptCandidate expected oid =>
    exact .of_swap (fun r => ⟨rfl, rfl, rfl, rfl⟩) (fun r => ⟨rfl, rfl, rfl, rfl⟩) fun r h => h
  | backfillResult expected oid => exact quiet_backfillLandedResultOid ..
  | holdCleanup seen => exact quiet_markCleanup ..
  | deferCleanup seen retry => exact quiet_markCleanup ..
  | persistOutcome observed outcome => exact quiet_persistMergeOutcome ..
  | admission request token => cases htoken
  | admissionUnregistered request token => cases htoken
  | _ => cases hclaim

/-- A quiet operation does not change the generation of a row. -/
theorem Quiet.generation {row next : Option MergeRow} (h : Quiet reaps nowMs limit row next)
    {r r' : MergeRow} (hr : row = some r) (hr' : next = some r') :
    r'.claimGeneration = r.claimGeneration := by
  induction h generalizing r with
  | keep row =>
    rw [hr] at hr'
    cases hr'
    rfl
  | create => cases hr
  | swap kept =>
    cases hr
    cases hr'
    exact kept.generation
  | write free kept =>
    cases hr
    cases hr'
    exact kept.generation
  | delete => cases hr'
  | expire =>
    cases hr
    cases hr'
    rfl
  | reap may expired rest ih =>
    cases hr
    have hgen := ih rfl hr'
    exact hgen

/-- A claimed row keeps what its drain works on, unless it landed, the lease ran out and the
operation reaps. -/
theorem Quiet.work {row next : Option MergeRow} (h : Quiet reaps nowMs limit row next)
    {r : MergeRow} (hr : row = some r) (howner : r.claimOwner ≠ none)
    (hlive : ¬ (reaps = true ∧ r.expiredLanded nowMs)) : ∃ r', next = some r' ∧ WorkKept r r' := by
  cases h with
  | keep => exact ⟨r, hr, ⟨rfl, rfl, rfl, rfl⟩⟩
  | create => cases hr
  | swap kept work =>
    cases hr
    exact ⟨_, rfl, work⟩
  | write free =>
    cases hr
    exact absurd free howner
  | delete free =>
    cases hr
    exact absurd free howner
  | expire =>
    cases hr
    exact ⟨_, rfl, ⟨rfl, rfl, rfl, rfl⟩⟩
  | reap may expired =>
    cases hr
    exact absurd ⟨may, expired⟩ hlive

theorem Quiet.attempts {row next : Option MergeRow} (h : Quiet reaps nowMs limit row next)
    {r' : MergeRow} (hr' : next = some r') (hle : ∀ r, row = some r → r.agentAttempts ≤ limit) :
    r'.agentAttempts ≤ limit := by
  induction h with
  | keep row => exact hle r' hr'
  | create owner phase lease attempts =>
    cases hr'
    rw [attempts]
    exact Int.natCast_nonneg _
  | swap kept work =>
    cases hr'
    rw [work.agentAttempts]
    exact hle _ rfl
  | write free kept attempts =>
    cases hr'
    rcases attempts with heq | hlim
    · rw [heq]
      exact hle _ rfl
    · exact hlim
  | delete => cases hr'
  | expire =>
    cases hr'
    have hold := hle _ rfl
    exact hold
  | reap may expired rest ih =>
    refine ih hr' ?_
    intro r hr
    cases hr
    have hold := hle _ rfl
    exact hold

end

/-! ## Admissions -/

theorem readClaim_claim (row : MergeRow) (request : MergeClaimRequest) (token : Text) (env : Env) :
    ∃ claim, readClaim (some (row.claim request token)) env request.repoRoot = .ok (some claim)
      ∧ claim.ownerToken = token ∧ claim.generation = row.claimGeneration + 1 :=
  ⟨_, rfl, rfl, rfl⟩

/-- An admission changes nothing, or gives the row to a new claim. -/
theorem admitMergeClaimTx_cases (db : MergeDb) (env : Env) (request : MergeClaimRequest)
    (token : Text) (identity : ClaimIdentity) :
    ((admitMergeClaimTx db env request token identity).1 = db
        ∧ (admitMergeClaimTx db env request token identity).2 = .ok none)
      ∨ ∃ row claim, db.row = some row ∧ row.admissible request env.nowMs = true
          ∧ admitMergeClaimTx db env request token identity
            = ({ db with row := some (row.claim request token) }, .ok (some claim))
          ∧ claim.ownerToken = token ∧ claim.generation = row.claimGeneration + 1 := by
  unfold admitMergeClaimTx
  dsimp only
  rcases updateRow_cases db.row (fun row => row.admissible request env.nowMs)
      (fun row => row.claim request token) with heq | ⟨row, hrow, hadm, heq⟩
  · rw [heq]
    left
    split_ifs
    all_goals first | exact ⟨rfl, rfl⟩ | contradiction
  · obtain ⟨claim, hread, htoken, hgen⟩ := readClaim_claim row request token env
    rw [heq]
    split_ifs with hlease hid hone
    · exact .inl ⟨rfl, rfl⟩
    · exact .inl ⟨rfl, rfl⟩
    · refine .inr ⟨row, claim, hrow, hadm, ?_, htoken, hgen⟩
      rw [hread]
    · exact absurd rfl hone

/-- An operation that mints a token changes nothing, or gives the row to a new claim. -/
theorem admission_cases (op : MergeOp) (db : MergeDb) (env : Env) {token : Text}
    (hop : op.token = some token) :
    (op.apply db env = db ∧ op.admitted db env = none)
      ∨ ∃ row request claim, db.row = some row ∧ row.admissible request env.nowMs = true
          ∧ request.expectedStatus ∈ claimableStatus
          ∧ op.apply db env = { db with row := some (row.claim request token) }
          ∧ op.admitted db env = some claim
          ∧ claim.ownerToken = token ∧ claim.generation = row.claimGeneration + 1 := by
  have hvalid : ∀ request, validateClaimRequest request = .ok () →
      request.expectedStatus ∈ claimableStatus := by
    intro request h
    unfold validateClaimRequest at h
    split_ifs at h with _ _ hstatus
    exact hstatus
  have htx : ∀ request identity, validateClaimRequest request = .ok () →
      let r := admitMergeClaimTx db env request token identity
      (r.1 = db ∧ r.2.toOption.join = none)
        ∨ ∃ row request claim, db.row = some row ∧ row.admissible request env.nowMs = true
            ∧ request.expectedStatus ∈ claimableStatus
            ∧ r.1 = { db with row := some (row.claim request token) }
            ∧ r.2.toOption.join = some claim
            ∧ claim.ownerToken = token ∧ claim.generation = row.claimGeneration + 1 := by
    intro request identity hok
    rcases admitMergeClaimTx_cases db env request token identity with ⟨hdb, hnone⟩ | hyes
    · left
      rw [hdb, hnone]
      exact ⟨rfl, rfl⟩
    · obtain ⟨row, claim, hrow, hadm, heq, htoken, hgen⟩ := hyes
      right
      rw [heq]
      exact ⟨row, request, claim, hrow, hadm, hvalid request hok, rfl, rfl, htoken, hgen⟩
  cases op with
  | admission request tok =>
    cases hop
    unfold MergeOp.apply MergeOp.admitted admitMergeClaim
    dsimp only
    cases hok : validateClaimRequest request with
    | error e => exact .inl ⟨rfl, rfl⟩
    | ok _ => exact htx request .registered hok
  | admissionUnregistered request tok =>
    cases hop
    unfold MergeOp.apply MergeOp.admitted admitUnregisteredLocalMergeClaim
    dsimp only
    cases hok : validateClaimRequest request with
    | error e => exact .inl ⟨rfl, rfl⟩
    | ok _ =>
      dsimp only
      split_ifs
      · exact .inl ⟨rfl, rfl⟩
      · exact htx request .unregisteredLocal hok
  | _ => cases hop

/-! ## Writes under a claim -/

/-- A row has an owner exactly if it has a phase of a claim, and exactly if it has a lease. -/
structure Shaped (row : MergeRow) : Prop where
  phase : row.claimOwner = none ↔ row.claimPhase = .unclaimed
  lease : row.claimOwner = none ↔ row.claimLeaseUntilMs = none

/-- What a write under a claim does to the row. -/
structure HeldWrite (limit next : Nat) (row row' : MergeRow) : Prop where
  generation : row'.claimGeneration = row.claimGeneration
  attempts : row.agentAttempts ≤ limit → row'.agentAttempts ≤ next
  owner : row'.claimOwner = row.claimOwner ∨ row'.claimOwner = none
  shaped : Shaped row → Shaped row'
  landed : LandedOk row → LandedOk row'

/-- A write under a claim fails and changes nothing, or succeeds on the row held under it. -/
def Fenced (limit next : Nat) (db : MergeDb) (claim : MergeClaim) (ok : Bool) (db' : MergeDb) :
    Prop :=
  (ok = false ∧ db' = db)
    ∨ ∃ row row', db.row = some row ∧ row.heldBy claim = true ∧ db'.row = some row'
        ∧ HeldWrite limit next row row'

section

variable {limit next : Nat}

theorem writeHeld_fenced (db : MergeDb) (env : Env) (claim : MergeClaim) {cond : MergeRow → Bool}
    {f : MergeRow → MergeRow}
    (hf : ∀ row, row.heldBy claim = true → cond row = true → HeldWrite limit next row (f row)) :
    Fenced limit next db claim (writeHeld db env claim cond f).2.toBool
      (writeHeld db env claim cond f).1 := by
  unfold writeHeld
  rcases updateRow_cases db.row (fun row => row.heldBy claim && cond row) f
    with heq | ⟨row, hrow, hc, heq⟩
  · rw [heq]
    exact .inl ⟨rfl, rfl⟩
  · rw [heq]
    rw [Bool.and_eq_true] at hc
    dsimp only
    rw [if_neg (by simp)]
    split
    · exact .inr ⟨row, f row, hrow, hc.1, rfl, hf row hc.1 hc.2⟩
    · exact .inl ⟨rfl, rfl⟩
    · exact .inl ⟨rfl, rfl⟩

theorem owner_of_heldBy {row : MergeRow} {claim : MergeClaim} (h : row.heldBy claim = true) :
    row.claimOwner = some claim.ownerToken ∧ row.claimGeneration = claim.generation := by
  simpa only [MergeRow.heldBy, Bool.and_eq_true, beq_iff_eq] using h

/-- A write that leaves owner, phase and lease alone keeps the shape. -/
theorem HeldWrite.of_kept {row row' : MergeRow} (h : ClaimKept row row')
    (hattempts : row.agentAttempts ≤ limit → row'.agentAttempts ≤ next)
    (hlanded : LandedOk row → LandedOk row') : HeldWrite limit next row row' where
  generation := h.generation
  attempts := hattempts
  owner := .inl h.owner
  shaped := by
    intro hs
    refine ⟨?_, ?_⟩
    · rw [h.owner, h.phase]
      exact hs.phase
    · rw [h.owner, h.lease]
      exact hs.lease
  landed := hlanded

theorem HeldWrite.unclaim (row : MergeRow) : HeldWrite limit limit row row.unclaim where
  generation := rfl
  attempts := fun h => h
  owner := .inr rfl
  shaped := fun _ => ⟨iff_of_true rfl rfl, iff_of_true rfl rfl⟩
  landed := fun h => h

/-- The event of a transition goes with the write. -/
theorem recordDrive_fenced {env : Env} {prior : Option MergeRow} {status : Text}
    {result base : Option Text} {db : MergeDb} {claim : MergeClaim}
    {written : MergeDb × Except Text MergeClaim}
    (h : Fenced limit next db claim written.2.toBool written.1) :
    Fenced limit next db claim (recordDrive env prior status result base written).2.toBool
      (recordDrive env prior status result base written).1 := by
  unfold recordDrive
  split
  · rename_i updated old hok
    split_ifs
    · rw [hok] at h
      rcases h with ⟨hfalse, _⟩ | hyes
      · cases hfalse
      · exact .inr hyes
    · exact h
  · exact h

theorem writeMergeStatusClaimed_fenced (db : MergeDb) (env : Env) (claim : MergeClaim)
    (status : Text) (fields : MergeStatusFields) (base : Option Text) :
    Fenced limit limit db claim (writeMergeStatusClaimed db env claim status fields base).2.toBool
      (writeMergeStatusClaimed db env claim status fields base).1 := by
  unfold writeMergeStatusClaimed
  split
  · exact .inl ⟨rfl, rfl⟩
  · split_ifs with hlanded
    · exact .inl ⟨rfl, rfl⟩
    · refine recordDrive_fenced (writeHeld_fenced db env claim ?_)
      intro row _ _
      refine .of_kept ⟨rfl, rfl, rfl, rfl⟩ (fun h => h) ?_
      intro _ hst
      exact Bool.not_eq_false _ ▸ fun hne => hlanded ⟨hst, hne⟩

/-- An attempt is consumed under a live claim and within the budget, or nothing happens. -/
theorem consume_cases (db : MergeDb) (env : Env) (claim : MergeClaim) (max : UInt32) :
    ((consumeMergeAgentAttempt db env claim max).2 ≠ .consumed
        ∧ (consumeMergeAgentAttempt db env claim max).1 = db)
      ∨ ∃ row, db.row = some row ∧ row.heldBy claim = true ∧ row.claimLive env.nowMs = true
          ∧ row.agentAttempts < max.toNat
          ∧ consumeMergeAgentAttempt db env claim max
            = ({ db with row := some { row with
                  agentAttempts := row.agentAttempts + 1, updatedAt := env.now } }, .consumed) := by
  unfold consumeMergeAgentAttempt
  dsimp only
  rcases updateRow_cases db.row (fun row => row.heldBy claim && row.claimLive env.nowMs
      && decide (row.agentAttempts < max.toNat))
      (fun row => { row with agentAttempts := row.agentAttempts + 1, updatedAt := env.now })
    with heq | ⟨row, hrow, hc, heq⟩
  · rw [heq]
    left
    refine ⟨?_, rfl⟩
    dsimp only
    rw [if_neg (by decide)]
    split_ifs <;> decide
  · rw [heq]
    simp only [Bool.and_eq_true, decide_eq_true_eq] at hc
    exact .inr ⟨row, hrow, hc.1.1, hc.1.2, hc.2, rfl⟩

/-- Every operation that is called with a claim is fenced by it. -/
theorem claim_write_cases (op : MergeOp) (db : MergeDb) (env : Env) {claim : MergeClaim}
    (hop : op.claim = some claim) :
    Fenced limit (op.limit db env limit) db claim (op.succeeds db env) (op.apply db env) := by
  cases op with
  | renew c stop =>
    cases hop
    unfold MergeOp.succeeds MergeOp.apply renewMergeClaim
    dsimp only
    split_ifs
    · exact .inl ⟨rfl, rfl⟩
    · refine writeHeld_fenced db env claim ?_
      intro row hheld _
      have howner := (owner_of_heldBy hheld).1
      refine ⟨rfl, fun h => h, .inl rfl, ?_, fun h => h⟩
      intro hs
      refine ⟨hs.phase, ?_⟩
      dsimp only
      rw [howner]
      exact iff_of_false (by simp) (by simp)
  | settle c =>
    cases hop
    refine writeHeld_fenced db env claim ?_
    intro row hheld _
    have howner := (owner_of_heldBy hheld).1
    refine ⟨rfl, fun h => h, .inl rfl, ?_, fun h => h⟩
    intro hs
    refine ⟨?_, hs.lease⟩
    dsimp only
    rw [howner]
    exact iff_of_false (by simp) (by simp)
  | release c =>
    cases hop
    unfold MergeOp.succeeds MergeOp.apply releaseMergeClaim
    dsimp only
    rcases updateRow_cases db.row (fun row => row.heldBy claim && row.claimPhase == .settled)
        MergeRow.unclaim with heq | ⟨row, hrow, hc, heq⟩
    · rw [heq]
      exact .inl ⟨rfl, rfl⟩
    · rw [heq]
      rw [Bool.and_eq_true] at hc
      exact .inr ⟨row, row.unclaim, hrow, hc.1, rfl, .unclaim row⟩
  | consume c max =>
    cases hop
    rcases consume_cases db env claim max with ⟨hlost, hdb⟩ | ⟨row, hrow, hheld, _, hlt, heq⟩
    · exact .inl ⟨beq_eq_false_iff_ne.mpr hlost, hdb⟩
    · refine .inr ⟨row, _, hrow, hheld, congrArg (fun r => r.1.row) heq, ?_⟩
      refine .of_kept ⟨rfl, rfl, rfl, rfl⟩ (fun _ => ?_) fun h => h
      rw [MergeOp.limit, heq, if_pos rfl]
      dsimp only
      omega
  | refund c =>
    cases hop
    unfold MergeOp.succeeds MergeOp.apply refundMergeAgentAttempt
    dsimp only
    rcases updateRow_cases db.row (fun row => row.heldBy claim && row.claimLive env.nowMs
        && decide (0 < row.agentAttempts))
        (fun row => { row with agentAttempts := row.agentAttempts - 1, updatedAt := env.now })
      with heq | ⟨row, hrow, hc, heq⟩
    · rw [heq]
      exact .inl ⟨rfl, rfl⟩
    · rw [heq]
      simp only [Bool.and_eq_true] at hc
      refine .inr ⟨row, _, hrow, hc.1.1, rfl, ?_⟩
      refine .of_kept ⟨rfl, rfl, rfl, rfl⟩ ?_ fun h => h
      intro hle
      exact (Int.sub_le_self _ (by decide)).trans hle
  | replaceStatusClaimed c status fields =>
    cases hop
    exact writeMergeStatusClaimed_fenced db env claim status fields none
  | landStatusClaimed c fields base =>
    cases hop
    unfold MergeOp.succeeds MergeOp.apply landMergeStatusClaimed
    dsimp only
    split_ifs
    · exact .inl ⟨rfl, rfl⟩
    · exact writeMergeStatusClaimed_fenced db env claim _ fields (some base)
  | _ => cases hop

end

/-! ## The invariant -/

structure Inv (w : World) : Prop where
  shaped : ∀ row, w.db.row = some row → Shaped row
  landed : ∀ row, w.db.row = some row → LandedOk row
  owner : ∀ row token, w.db.row = some row → row.claimOwner = some token →
    ∃ rest, w.history = (token, row.claimGeneration) :: rest
  attempts : ∀ row, w.db.row = some row → row.agentAttempts ≤ w.limit
  nodup : (w.history.map Prod.fst).Nodup
  used : ∀ token ∈ w.history.map Prod.fst, token ∈ w.used

theorem inv_init (clock : Int) : Inv (World.init clock) where
  shaped := fun _ h => by cases h
  landed := fun _ h => by cases h
  owner := fun _ _ h => by cases h
  attempts := fun _ h => by cases h
  nodup := nodup_nil
  used := fun _ h => by cases h

theorem Shaped.of_kept {row row' : MergeRow} (h : Shaped row) (hk : ClaimKept row row') :
    Shaped row' where
  phase := by
    rw [hk.owner, hk.phase]
    exact h.phase
  lease := by
    rw [hk.owner, hk.lease]
    exact h.lease

/-- A quiet operation keeps the shape of the row, and the owner if there is one after it. -/
theorem Quiet.row {reaps : Bool} {nowMs : Int} {limit : Nat} {row next : Option MergeRow}
    (h : Quiet reaps nowMs limit row next) (hrow : ∀ r, row = some r → Shaped r ∧ LandedOk r)
    {r' : MergeRow} (hr' : next = some r') :
    Shaped r' ∧ LandedOk r' ∧ ∀ token, r'.claimOwner = some token →
      ∃ r, row = some r ∧ r.claimOwner = some token ∧ r'.claimGeneration = r.claimGeneration := by
  induction h with
  | keep row => exact ⟨(hrow r' hr').1, (hrow r' hr').2, fun token ht => ⟨r', hr', ht, rfl⟩⟩
  | create owner phase lease attempts landed =>
    cases hr'
    refine ⟨⟨iff_of_true owner phase, iff_of_true owner lease⟩, landed, ?_⟩
    intro token ht
    rw [owner] at ht
    cases ht
  | swap kept work landed =>
    cases hr'
    obtain ⟨hs, hl⟩ := hrow _ rfl
    refine ⟨hs.of_kept kept, landed hl, ?_⟩
    intro token ht
    rw [kept.owner] at ht
    exact ⟨_, rfl, ht, kept.generation⟩
  | write free kept attempts landed =>
    cases hr'
    obtain ⟨hs, hl⟩ := hrow _ rfl
    refine ⟨hs.of_kept kept, landed hl, ?_⟩
    intro token ht
    rw [kept.owner, free] at ht
    cases ht
  | delete => cases hr'
  | expire =>
    cases hr'
    have hl := (hrow _ rfl).2
    refine ⟨⟨iff_of_true rfl rfl, iff_of_true rfl rfl⟩, hl, ?_⟩
    intro token ht
    cases ht
  | @reap row next may expired rest ih =>
    have hun : ∀ r, some row.unclaim = some r → Shaped r ∧ LandedOk r := by
      intro r hr
      cases hr
      have hl := (hrow row rfl).2
      exact ⟨⟨iff_of_true rfl rfl, iff_of_true rfl rfl⟩, hl⟩
    obtain ⟨hs, hl, hown⟩ := ih hun hr'
    refine ⟨hs, hl, ?_⟩
    intro token ht
    obtain ⟨r, hr, hnone, _⟩ := hown token ht
    cases hr
    cases hnone

/-- A write under a claim that fails leaves the limit. -/
theorem limit_of_fails (op : MergeOp) (db : MergeDb) (env : Env) {claim : MergeClaim} {limit : Nat}
    (hop : op.claim = some claim) (hfail : op.succeeds db env = false) :
    op.limit db env limit = limit := by
  cases op with
  | consume c max => exact if_neg (beq_eq_false_iff_ne.mp hfail)
  | setAgentAttempts attempts => cases hop
  | _ => rfl

/-- The limit covers the attempts after every operation. -/
theorem attempts_le_limit (op : MergeOp) (db : MergeDb) (env : Env) {limit : Nat}
    (hle : ∀ row, db.row = some row → row.agentAttempts ≤ limit) {row' : MergeRow}
    (hrow' : (op.apply db env).row = some row') : row'.agentAttempts ≤ op.limit db env limit := by
  cases hclaim : op.claim with
  | some claim =>
    rcases claim_write_cases op db env hclaim with ⟨hfail, hdb⟩ | ⟨row, r, hrow, _, hr, hw⟩
    · rw [limit_of_fails op db env hclaim hfail]
      rw [hdb] at hrow'
      exact hle row' hrow'
    · rw [hr] at hrow'
      cases hrow'
      exact hw.attempts (hle row hrow)
  | none =>
    cases htoken : op.token with
    | some token =>
      have hlimit : op.limit db env limit = limit := by
        cases op <;> first | rfl | cases htoken
      rw [hlimit]
      rcases admission_cases op db env htoken with ⟨hdb, _⟩ | hyes
      · rw [hdb] at hrow'
        exact hle row' hrow'
      · obtain ⟨row, request, claim, hrow, _, _, happly, _⟩ := hyes
        rw [happly] at hrow'
        cases hrow'
        have hold := hle row hrow
        exact hold
    | none =>
      have hq : Quiet op.reaps env.nowMs (op.limit db env limit) db.row (op.apply db env).row :=
        quiet_apply op db env hclaim htoken
      cases op with
      | setAgentAttempts attempts =>
        -- the only quiet operation that moves the limit
        unfold MergeOp.apply setMergeAgentAttempts writeUnclaimed updateRow at hrow'
        unfold MergeOp.limit
        dsimp only at hrow' ⊢
        cases hdb : db.row with
        | none =>
          rw [hdb] at hrow'
          cases hrow'
        | some row =>
          rw [hdb] at hrow'
          dsimp only [Option.any_some] at hrow' ⊢
          by_cases hfree : row.claimOwner.isNone = true
          · rw [if_pos hfree] at hrow' ⊢
            cases hrow'
            exact le_rfl
          · rw [if_neg hfree] at hrow' ⊢
            cases hrow'
            exact hle row' hdb
      | _ => first | exact hq.attempts hrow' hle | cases hclaim

/-! ## Runs -/

/-- Every operation keeps the invariant. -/
theorem Inv.step {w w' : World} {m : MergeOp × Env} (h : Inv w) (hstep : mergeStep w m = some w') :
    Inv w' := by
  unfold mergeStep at hstep
  split_ifs at hstep with hguard
  cases hstep
  obtain ⟨op, env⟩ := m
  obtain ⟨_, hfresh⟩ := hguard
  have hattempts : ∀ row', (op.apply w.db env).row = some row' →
      row'.agentAttempts ≤ op.limit w.db env w.limit :=
    fun row' => attempts_le_limit op w.db env h.attempts
  dsimp only at hfresh ⊢
  cases htoken : op.token with
  | some token =>
    rcases admission_cases op w.db env htoken with ⟨hdb, hno⟩ | hyes
    · rw [hno]
      rw [hdb] at hattempts ⊢
      refine ⟨h.shaped, h.landed, h.owner, hattempts, h.nodup, ?_⟩
      intro t ht
      exact mem_append_right _ (h.used t ht)
    · obtain ⟨row, request, claim, hrow, _, _, happly, hadm, htok, hgen⟩ := hyes
      have hnew : token ∉ w.used := hfresh token htoken
      have hhistory : ((op.admitted w.db env).map fun claim =>
          (claim.ownerToken, claim.generation)).toList ++ w.history
            = (token, row.claimGeneration + 1) :: w.history := by
        rw [hadm, ← htok, ← hgen]
        rfl
      rw [hhistory]
      refine ⟨?_, ?_, ?_, hattempts, ?_, ?_⟩
      · rw [happly]
        intro r hr
        cases hr
        exact ⟨iff_of_false (by simp [MergeRow.claim]) (by simp [MergeRow.claim]),
          iff_of_false (by simp [MergeRow.claim]) (by simp [MergeRow.claim])⟩
      · rw [happly]
        intro r hr
        cases hr
        have hl := h.landed row hrow
        exact hl
      · rw [happly]
        intro r t hr ht
        cases hr
        cases ht
        exact ⟨w.history, rfl⟩
      · exact nodup_cons.mpr ⟨fun hmem => hnew (h.used token hmem), h.nodup⟩
      · intro t ht
        rcases mem_cons.mp ht with rfl | ht
        · exact .head _
        · exact .tail _ (h.used t ht)
  | none =>
    have hno : op.admitted w.db env = none := by
      cases op <;> first | rfl | cases htoken
    rw [hno]
    cases hclaim : op.claim with
    | some claim =>
      have hfenced : Fenced w.limit (op.limit w.db env w.limit) w.db claim
          (op.succeeds w.db env) (op.apply w.db env) := claim_write_cases op w.db env hclaim
      rcases hfenced with ⟨_, hdb⟩ | ⟨row, r, hrow, hheld, hr, hw⟩
      · rw [hdb] at hattempts ⊢
        exact ⟨h.shaped, h.landed, h.owner, hattempts, h.nodup, h.used⟩
      · refine ⟨?_, ?_, ?_, hattempts, h.nodup, h.used⟩
        · intro r' hr'
          rw [hr] at hr'
          cases hr'
          exact hw.shaped (h.shaped row hrow)
        · intro r' hr'
          rw [hr] at hr'
          cases hr'
          exact hw.landed (h.landed row hrow)
        · intro r' token hr' ht
          rw [hr] at hr'
          cases hr'
          rcases hw.owner with hsame | hnone
          · rw [hsame] at ht
            rw [hw.generation]
            exact h.owner row token hrow ht
          · rw [hnone] at ht
            cases ht
    | none =>
      have hq : Quiet op.reaps env.nowMs (op.limit w.db env w.limit) w.db.row
        (op.apply w.db env).row := quiet_apply op w.db env hclaim htoken
      have hrow : ∀ r, w.db.row = some r → Shaped r ∧ LandedOk r :=
        fun r hr => ⟨h.shaped r hr, h.landed r hr⟩
      refine ⟨?_, ?_, ?_, hattempts, h.nodup, h.used⟩
      · intro r' hr'
        exact (hq.row hrow hr').1
      · intro r' hr'
        exact (hq.row hrow hr').2.1
      · intro r' token hr' ht
        obtain ⟨r, hr, hown, hgen⟩ := (hq.row hrow hr').2.2 token ht
        rw [hgen]
        exact h.owner r token hr hown

theorem Inv.run {clock : Int} {w : World} {ops : List (MergeOp × Env)}
    (h : Run.run mergeStep (World.init clock) ops = some w) : Inv w :=
  run_induction (fun _ _ _ hinv hstep => hinv.step hstep) (inv_init clock) h

/-- The claim of a write that succeeds is the last one admitted. -/
theorem Inv.newest_of_succeeds {w : World} (h : Inv w) {op : MergeOp} {env : Env}
    {claim : MergeClaim} (hop : op.claim = some claim) (hs : op.succeeds w.db env = true) :
    ∃ rest, w.history = (claim.ownerToken, claim.generation) :: rest := by
  have hfenced : Fenced w.limit (op.limit w.db env w.limit) w.db claim (op.succeeds w.db env)
      (op.apply w.db env) := claim_write_cases op w.db env hop
  rcases hfenced with ⟨hfail, _⟩ | ⟨row, _, hrow, hheld, _⟩
  · rw [hfail] at hs
    cases hs
  · obtain ⟨howner, hgen⟩ := owner_of_heldBy hheld
    rw [← hgen]
    exact h.owner row _ hrow howner

/-- A write with the token of an earlier claim fails and changes nothing. -/
theorem Inv.earlier_fails {w : World} (h : Inv w) {newest earlier : Text × Int}
    {rest : List (Text × Int)} (hhistory : w.history = newest :: rest) (hmem : earlier ∈ rest)
    {op : MergeOp} {env : Env} {claim : MergeClaim} (hop : op.claim = some claim)
    (htok : claim.ownerToken = earlier.1) :
    op.succeeds w.db env = false ∧ op.apply w.db env = w.db := by
  have hfenced : Fenced w.limit (op.limit w.db env w.limit) w.db claim (op.succeeds w.db env)
      (op.apply w.db env) := claim_write_cases op w.db env hop
  rcases hfenced with hfail | ⟨row, _, hrow, hheld, _⟩
  · exact hfail
  · exfalso
    obtain ⟨howner, _⟩ := owner_of_heldBy hheld
    obtain ⟨rest', hhead⟩ := h.owner row _ hrow howner
    have hnodup := h.nodup
    rw [hhistory] at hhead hnodup
    cases hhead
    -- the token would stand twice in the history
    rw [map_cons, nodup_cons, htok] at hnodup
    exact hnodup.1 (mem_map.mpr ⟨earlier, hmem, rfl⟩)

/-- An admission raises the generation by one, and nothing else touches it. -/
theorem generation_apply (op : MergeOp) (db : MergeDb) (env : Env) {row row' : MergeRow}
    (hrow : db.row = some row) (hrow' : (op.apply db env).row = some row') :
    row'.claimGeneration
      = if (op.admitted db env).isSome then row.claimGeneration + 1 else row.claimGeneration := by
  cases htoken : op.token with
  | some token =>
    rcases admission_cases op db env htoken with ⟨hdb, hno⟩ | hyes
    · rw [hdb, hrow] at hrow'
      cases hrow'
      rw [hno]
      rfl
    · obtain ⟨r, request, claim, hr, _, _, happly, hadm, _⟩ := hyes
      rw [hrow] at hr
      cases hr
      rw [happly] at hrow'
      cases hrow'
      rw [hadm]
      rfl
  | none =>
    have hno : op.admitted db env = none := by
      cases op <;> first | rfl | cases htoken
    rw [hno]
    cases hclaim : op.claim with
    | some claim =>
      have hfenced : Fenced 0 (op.limit db env 0) db claim (op.succeeds db env)
          (op.apply db env) := claim_write_cases op db env hclaim
      rcases hfenced with ⟨_, hdb⟩ | ⟨r, r', hr, _, hr', hw⟩
      · rw [hdb, hrow] at hrow'
        cases hrow'
        rfl
      · rw [hrow] at hr
        rw [hrow'] at hr'
        cases hr
        cases hr'
        exact hw.generation
    | none =>
      have hq : Quiet op.reaps env.nowMs (op.limit db env 0) db.row (op.apply db env).row :=
        quiet_apply op db env hclaim htoken
      exact hq.generation hrow hrow'

/-- **Merge claims are fenced leases.** In every run a row has an owner exactly if it has the phase
of a claim, and exactly if it has a lease; each admission raises the generation of its row and
nothing else changes it; a write succeeds only under the last claim admitted, and under an earlier
one it changes nothing; while there is an owner, no operation without a claim changes status,
branch, target or attempts, unless the row landed and its lease ran out, when enqueueing and removal
release it first; and the attempts stay within the limit last given. -/
theorem merge_claims_fenced {clock : Int} {ops : List (MergeOp × Env)} {w : World}
    (h : Run.run mergeStep (World.init clock) ops = some w) :
    (∀ row, w.db.row = some row → (row.claimOwner = none ↔ row.claimPhase = .unclaimed)
          ∧ (row.claimOwner = none ↔ row.claimLeaseUntilMs = none))
      ∧ (∀ (op : MergeOp) env row row', w.db.row = some row → (op.apply w.db env).row = some row' →
        row'.claimGeneration = if (op.admitted w.db env).isSome then row.claimGeneration + 1
          else row.claimGeneration)
      ∧ (∀ (op : MergeOp) env claim, op.admitted w.db env = some claim →
        ∃ row row', w.db.row = some row ∧ (op.apply w.db env).row = some row'
          ∧ row.claimGeneration < row'.claimGeneration ∧ row'.claimGeneration = claim.generation)
      ∧ (∀ (op : MergeOp) env claim, op.claim = some claim → op.succeeds w.db env = true →
        ∃ rest, w.history = (claim.ownerToken, claim.generation) :: rest)
      ∧ (∀ newest rest, w.history = newest :: rest → ∀ earlier ∈ rest,
        ∀ (op : MergeOp) env claim, op.claim = some claim → claim.ownerToken = earlier.1 →
          op.succeeds w.db env = false ∧ op.apply w.db env = w.db)
      ∧ (∀ (op : MergeOp) env row, w.db.row = some row → row.claimOwner ≠ none →
        op.claim = none → op.token = none → ¬ (op.reaps = true ∧ row.expiredLanded env.nowMs) →
          ∃ row', (op.apply w.db env).row = some row' ∧ row'.status = row.status
            ∧ row'.branch = row.branch ∧ row'.targetBranch = row.targetBranch
            ∧ row'.agentAttempts = row.agentAttempts)
      ∧ (∀ row, w.db.row = some row → row.agentAttempts ≤ w.limit)
      ∧ (∀ env claim max, (consumeMergeAgentAttempt w.db env claim max).2 = .consumed →
        ∃ row', (consumeMergeAgentAttempt w.db env claim max).1.row = some row'
          ∧ row'.agentAttempts ≤ max.toNat) := by
  have hinv : Inv w := Inv.run h
  refine ⟨fun row hrow => ⟨(hinv.shaped row hrow).phase, (hinv.shaped row hrow).lease⟩,
    fun op env row row' => generation_apply op w.db env, ?_,
    fun op env claim => hinv.newest_of_succeeds, ?_, ?_, hinv.attempts, ?_⟩
  · intro op env claim hadm
    cases htoken : op.token with
    | none =>
      exfalso
      cases op <;> first | cases hadm | cases htoken
    | some token =>
      rcases admission_cases op w.db env htoken with ⟨_, hno⟩ | hyes
      · rw [hno] at hadm
        cases hadm
      · obtain ⟨row, request, c, hrow, _, _, happly, hc, _, hgen⟩ := hyes
        rw [hc] at hadm
        cases hadm
        refine ⟨row, row.claim request token, hrow, ?_, Int.lt_succ _, hgen.symm⟩
        rw [happly]
  · intro newest rest hhistory earlier hmem op env claim hop htok
    exact hinv.earlier_fails hhistory hmem hop htok
  · intro op env row hrow howner hclaim htoken hlive
    have hq : Quiet op.reaps env.nowMs (op.limit w.db env 0) w.db.row (op.apply w.db env).row :=
      quiet_apply op w.db env hclaim htoken
    obtain ⟨row', hrow', hwork⟩ := hq.work hrow howner hlive
    exact ⟨row', hrow', hwork.status, hwork.branch, hwork.targetBranch, hwork.agentAttempts⟩
  · intro env claim max hconsumed
    rcases consume_cases w.db env claim max with ⟨hlost, _⟩ | ⟨row, _, _, _, hlt, heq⟩
    · exact absurd hconsumed hlost
    · refine ⟨_, congrArg (fun r => r.1.row) heq, ?_⟩
      dsimp only
      omega

/-- The registry has the worktree. -/
def sampleEnv (nowMs : Int) : Env :=
  { nowMs
    registry := some { branch := some "b".toList, repoPath := some "/r".toList, location := none }
    actor := "thegn pid 1".toList }

def sampleRequest : MergeClaimRequest :=
  { worktree := "/r/b".toList, branch := "b".toList, repoRoot := "/r".toList
    targetBranch := "main".toList, location := [], expectedStatus := "queued".toList
    leaseUntilMs := 9000, ownerHint := none }

/-- The first claim of the sample runs. -/
def sampleClaim : MergeClaim :=
  { branch := "b".toList, repoRoot := "/r".toList, targetBranch := "main".toList, location := []
    generation := 1, phase := .claimedNoChild, leaseUntilMs := 9000, ownerHint := none
    ownerToken := "t1".toList }

/-- A claim that runs out, and a second one. -/
def twoClaims : List (MergeOp × Env) :=
  [(.enqueue "b".toList "main".toList, sampleEnv 1000),
    (.admission sampleRequest "t1".toList, sampleEnv 2000),
    (.admission { sampleRequest with leaseUntilMs := 12000 } "t2".toList, sampleEnv 9001)]

theorem merge_claims_fenced_sample :
    ∃ w, Run.run mergeStep (World.init 0) twoClaims = some w ∧ w.history.length = 2
      ∧ (MergeOp.settle sampleClaim).succeeds w.db (sampleEnv 9002) = false
      ∧ (MergeOp.settle sampleClaim).apply w.db (sampleEnv 9002) = w.db := by
  refine ⟨_, rfl, rfl, ?_⟩
  exact (@merge_claims_fenced 0 twoClaims _ rfl).2.2.2.2.1 _ _ rfl _ (mem_singleton_self _) _ _
    sampleClaim rfl rfl

/-- A drain that lands its row and leaves its claim to run out. -/
def landedClaim : List (MergeOp × Env) :=
  [(.enqueue "b".toList "main".toList, sampleEnv 1000),
    (.admission sampleRequest "t1".toList, sampleEnv 2000), (.landStatusClaimed sampleClaim
      { resultOid := some "c3".toList, conflictPaths := none, errorDetail := none } "a1".toList,
      sampleEnv 3000)]

/-- The row has an owner and is landed; enqueueing it again queues it, without an owner. -/
theorem expired_landed_requeued :
    ∃ w row row', Run.run mergeStep (World.init 0) landedClaim = some w ∧ w.db.row = some row
      ∧ row.claimOwner ≠ none ∧ row.status = "landed".toList
      ∧ ((MergeOp.enqueue "b".toList "main".toList).apply w.db (sampleEnv 9001)).row = some row'
      ∧ row'.status = "queued".toList ∧ row'.claimOwner = none :=
  ⟨_, _, _, rfl, rfl, by decide, rfl, rfl, rfl, rfl⟩

end Thegn.MergeQueue
