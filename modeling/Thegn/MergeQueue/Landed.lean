import Thegn.MergeQueue.Fence

set_option autoImplicit false

/-! # Landed rows and writers without a claim

A landed row has no status that a request may expect, so an admission can take it only by the branch
that recovers a claim that ran out. Four writers are not fenced by a claim but by what their caller
saw of the row; one of them repairs rows that no run from an empty queue has.
-/

namespace Thegn.MergeQueue

open Text Run

/-- No request may expect `landed`. -/
theorem landed_not_claimable : "landed".toList ∉ claimableStatus := by decide

/-- A landed row is not admissible without a claim that ran out. -/
theorem not_admissible_of_landed {row : MergeRow} {request : MergeClaimRequest} {nowMs : Int}
    (hstatus : request.expectedStatus ∈ claimableStatus) (hlanded : row.status = "landed".toList)
    (hphase : row.claimPhase = .unclaimed
      ∨ ∃ stop, row.claimLeaseUntilMs = some stop ∧ nowMs ≤ stop) :
    row.admissible request nowMs = false := by
  rw [Bool.eq_false_iff]
  intro hadm
  simp only [MergeRow.admissible, Bool.and_eq_true, Bool.or_eq_true, beq_iff_eq,
    Option.any_eq_true, decide_eq_true_eq] at hadm
  obtain ⟨⟨⟨_, hcases⟩, _⟩, _⟩ := hadm
  rcases hcases with ⟨_, hst⟩ | ⟨hclaimed, stop, hstop, hlt⟩
  · rw [hlanded] at hst
    rw [← hst] at hstatus
    exact landed_not_claimable hstatus
  · rcases hphase with hun | ⟨stop', hstop', hle⟩
    · rw [hun] at hclaimed
      rcases hclaimed with h | h <;> cases h
    · rw [hstop] at hstop'
      cases hstop'
      omega

/-- The columns a cleanup marker was decided on are the ones of the row. -/
theorem markCleanup_cases (db : MergeDb) (seen : MergeQueueRow) (marker : Text) :
    (markCleanup db seen marker).1 = db ∨ ∃ row, db.row = some row ∧ row.status = "landed".toList
          ∧ nonempty row.resultOid = true ∧ mergeQueueRow row = seen
          ∧ (markCleanup db seen marker).1
            = { db with row := some { row with errorDetail := some marker } } := by
  unfold markCleanup
  split_ifs with hseen
  · exact .inl rfl
  · dsimp only
    simp only [not_or, not_not, Bool.not_eq_false] at hseen
    obtain ⟨hlanded, hresult, _⟩ := hseen
    rcases updateRow_cases db.row
        (fun row => row.branch == seen.branch && row.targetBranch == seen.targetBranch
          && row.status == seen.status && row.queuedAt == seen.queuedAt
          && row.updatedAt == seen.updatedAt && row.resultOid == seen.resultOid
          && row.conflictPaths == seen.conflictPaths && row.errorDetail == seen.errorDetail
          && row.location.getD [] == seen.location && row.agentAttempts == seen.agentAttempts)
        (fun row => { row with errorDetail := some marker }) with heq | ⟨row, hrow, hc, heq⟩
    · rw [heq]
      exact .inl rfl
    · rw [heq]
      simp only [Bool.and_eq_true, beq_iff_eq] at hc
      obtain ⟨⟨⟨⟨⟨⟨⟨⟨⟨hb, htb⟩, hst⟩, hq⟩, hu⟩, hr⟩, hcp⟩, he⟩, hloc⟩, ha⟩ := hc
      refine .inr ⟨row, hrow, hst.trans hlanded, hr ▸ hresult, ?_, rfl⟩
      unfold mergeQueueRow
      rw [hb, htb, hst, hq, hu, hr, hcp, he, hloc, ha]
      rfl

theorem adoptMergeCandidate_cases (db : MergeDb) (env : Env) (expected : MergeCandidate)
    (oid : Text) :
    (adoptMergeCandidate db env expected oid).1 = db
      ∨ ∃ row, db.row = some row ∧ row.status = "folding".toList
          ∧ row.branchRef = some expected.branchRef
          ∧ row.candidateOid = some expected.candidateOid
          ∧ (adoptMergeCandidate db env expected oid).1
            = { db with
              row := some { row with candidateOid := some oid, updatedAt := env.now } } := by
  unfold adoptMergeCandidate
  dsimp only
  rcases updateRow_cases db.row
      (fun row => row.branchRef == some expected.branchRef
        && row.candidateOid == some expected.candidateOid
        && decide (row.status = "folding".toList))
      (fun row => { row with candidateOid := some oid, updatedAt := env.now })
    with heq | ⟨row, hrow, hc, heq⟩
  · rw [heq]
    exact .inl rfl
  · rw [heq]
    simp only [Bool.and_eq_true, beq_iff_eq, decide_eq_true_eq] at hc
    exact .inr ⟨row, hrow, hc.2, hc.1.1, hc.1.2, rfl⟩

/-- No landed row of a run lacks its result, so there is nothing to fill in. -/
theorem Inv.backfill {w : World} (h : Inv w) (expected : MergeQueueRow) (oid : Text) :
    (backfillLandedResultOid w.db expected oid).1 = w.db := by
  unfold backfillLandedResultOid
  split_ifs
  · rfl
  · rfl
  · dsimp only
    rcases updateRow_cases w.db.row
        (fun row => row.branch == expected.branch && row.targetBranch == expected.targetBranch
          && decide (row.status = "landed".toList) && row.updatedAt == expected.updatedAt
          && !nonempty row.resultOid)
        (fun row => { row with resultOid := some oid }) with heq | ⟨row, hrow, hc, _⟩
    · rw [heq]
    · simp only [Bool.and_eq_true, decide_eq_true_eq, Bool.not_eq_true'] at hc
      have hresult := h.landed row hrow hc.1.1.2
      rw [hc.2] at hresult
      cases hresult

/-- **Landed rows and unfenced writers.** In every run no admission takes a landed row that is
unclaimed or whose lease has not run out. Whoever calls them, and whatever the claim: filling in a
result changes nothing; adopting a candidate changes only the candidate and the time, of a row that
is folding and has the pair the caller expected; holding or deferring a cleanup changes only the
detail, of a landed row that is as the caller saw it. -/
theorem landed_and_unfenced_writers {clock : Int} {ops : List (MergeOp × Env)} {w : World}
    (h : Run.run mergeStep (World.init clock) ops = some w) :
    (∀ row (op : MergeOp) env token, w.db.row = some row → row.status = "landed".toList →
        (row.claimPhase = .unclaimed
          ∨ ∃ stop, row.claimLeaseUntilMs = some stop ∧ env.nowMs ≤ stop) →
        op.token = some token → op.admitted w.db env = none ∧ op.apply w.db env = w.db)
      ∧ (∀ expected oid, (backfillLandedResultOid w.db expected oid).1 = w.db)
      ∧ (∀ env expected oid, (adoptMergeCandidate w.db env expected oid).1 = w.db
        ∨ ∃ row, w.db.row = some row ∧ row.status = "folding".toList
            ∧ row.branchRef = some expected.branchRef
            ∧ row.candidateOid = some expected.candidateOid
            ∧ (adoptMergeCandidate w.db env expected oid).1
              = { w.db with
                  row := some { row with candidateOid := some oid, updatedAt := env.now } })
      ∧ (∀ seen, (holdMergeCleanup w.db seen).1 = w.db
        ∨ ∃ row, w.db.row = some row ∧ row.status = "landed".toList
            ∧ nonempty row.resultOid = true ∧ mergeQueueRow row = seen
            ∧ (holdMergeCleanup w.db seen).1
              = { w.db with row := some { row with errorDetail := some branchRetained } })
      ∧ (∀ seen next, (deferMergeCleanup w.db seen next).1 = w.db
        ∨ ∃ row, w.db.row = some row ∧ row.status = "landed".toList
            ∧ nonempty row.resultOid = true ∧ mergeQueueRow row = seen
            ∧ (deferMergeCleanup w.db seen next).1
              = { w.db with row := some { row with errorDetail := some next.marker } }) := by
  have hinv : Inv w := Inv.run h
  refine ⟨?_, hinv.backfill, adoptMergeCandidate_cases w.db,
    fun seen => markCleanup_cases w.db seen branchRetained,
    fun seen next => markCleanup_cases w.db seen next.marker⟩
  intro row op env token hrow hlanded hphase htoken
  rcases admission_cases op w.db env htoken with ⟨hdb, hno⟩ | hyes
  · exact ⟨hno, hdb⟩
  · obtain ⟨row', request, _, hrow', hadm, hstatus, _⟩ := hyes
    rw [hrow] at hrow'
    cases hrow'
    rw [not_admissible_of_landed hstatus hlanded hphase] at hadm
    cases hadm

/-- A claim on a row with a candidate that the drain folds. -/
def foldingClaim : List (MergeOp × Env) :=
  [(.enqueueCandidate "b".toList "main".toList
      { branchRef := "refs/heads/b".toList, candidateOid := List.replicate 40 'a' },
      sampleEnv 1000),
    (.admission sampleRequest "t1".toList, sampleEnv 2000),
    (.replaceStatusClaimed sampleClaim "folding".toList
      { resultOid := none, conflictPaths := none, errorDetail := none }, sampleEnv 3000)]

theorem landed_and_unfenced_writers_sample :
    ∃ w, Run.run mergeStep (World.init 0) landedClaim = some w
      ∧ (MergeOp.admission sampleRequest "t2".toList).admitted w.db (sampleEnv 4000) = none
      ∧ (MergeOp.admission sampleRequest "t2".toList).apply w.db (sampleEnv 4000) = w.db := by
  refine ⟨_, rfl, ?_⟩
  exact (@landed_and_unfenced_writers 0 landedClaim _ rfl).1 _ _ _ _ rfl rfl
    (.inr ⟨9000, rfl, by decide⟩) rfl

/-- While the claim is live, a caller without it adopts another candidate. -/
theorem adopt_without_claim :
    ∃ w row row', Run.run mergeStep (World.init 0) foldingClaim = some w ∧ w.db.row = some row
      ∧ row.claimOwner ≠ none ∧ row.claimLeaseUntilMs = some 9000
      ∧ (adoptMergeCandidate w.db (sampleEnv 4000)
          { branchRef := "refs/heads/b".toList, candidateOid := List.replicate 40 'a' }
          (List.replicate 40 'b')).1.row = some row'
      ∧ row'.candidateOid ≠ row.candidateOid :=
  ⟨_, _, _, rfl, rfl, by decide, rfl, rfl, by decide⟩

end Thegn.MergeQueue
