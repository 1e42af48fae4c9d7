import Thegn.Migration.Import

set_option autoImplicit false

/-! # A migration is confirmed, and changes nothing when it is repeated

`import_confirmable`: an import of a planned bundle is confirmed by its fingerprint, is planned as
resumed afterwards, and a second one changes nothing and reports the same numbers.
-/

namespace Thegn.Migration

open Text Dispatch Rows List

/-! ## Plans -/

section Plan

variable {codec : CwdCodec} {digest : Text → Text} {b : MigrationBundle} {target : MigrationTarget}
  {history : HistoryPolicy}

/-- Nothing of the target stands against the bundle. -/
structure Admits (codec : CwdCodec) (b : MigrationBundle) (target : MigrationTarget)
    (history : HistoryPolicy) : Prop where
  groups : ∀ g ∈ (importedBundle codec b history).groups, groupConflict target g = false
  ui : ∀ row ∈ b.uiState, uiConflict target row = false
  pin : pinConflict target b = false

/-- The target holds what the bundle would write. -/
def isResumed (codec : CwdCodec) (digest : Text → Text) (b : MigrationBundle)
    (target : MigrationTarget) (history : HistoryPolicy) : Bool :=
  fingerprint digest (targetSubset b target) == fingerprint digest
    (importedBundle codec b history) &&
    hasPriorRows (targetSubset b target)

theorem planMigration_ok {plan : MigrationPlan}
    (h : planMigration codec digest b target history = .ok plan) :
    plan = { bundle := b, target,
             fingerprint := fingerprint digest (importedBundle codec b history),
             resumed := isResumed codec digest b target history, history } ∧
      Admits codec b target history ∧
      (isResumed codec digest b target history = false →
        (targetSubset b target).dispatches = [] ∧ (targetSubset b target).uiState = [] ∧
          (targetSubset b target).pinState = none) := by
  unfold planMigration at h
  dsimp only at h
  cases hgroups : (importedBundle codec b history).groups.find? (groupConflict target) with
  | some g =>
    rw [hgroups] at h
    cases h
  | none =>
    rw [hgroups] at h
    dsimp only at h
    cases hui : b.uiState.find? (uiConflict target) with
    | some row =>
      rw [hui] at h
      cases h
    | none =>
      rw [hui] at h
      dsimp only at h
      split_ifs at h with hpin hprior
      refine ⟨(Except.ok.inj h).symm, ⟨?_, ?_, Bool.not_eq_true _ ▸ hpin⟩, fun hresumed => ?_⟩
      · exact fun g hg => Bool.not_eq_true _ ▸ List.find?_eq_none.mp hgroups g hg
      · exact fun row hrow => Bool.not_eq_true _ ▸ List.find?_eq_none.mp hui row hrow
      · unfold isResumed at hresumed
        rw [hresumed] at hprior
        simpa [and_assoc] using hprior

theorem planMigration_resumed (hadmits : Admits codec b target history)
    (hresumed : isResumed codec digest b target history = true) :
    planMigration codec digest b target history =
      .ok { bundle := b, target,
            fingerprint := fingerprint digest (importedBundle codec b history),
            resumed := true, history } := by
  have hgroups : (importedBundle codec b history).groups.find? (groupConflict target) = none :=
    List.find?_eq_none.mpr fun g hg => by rw [hadmits.groups g hg]; exact Bool.false_ne_true
  have hui : b.uiState.find? (uiConflict target) = none :=
    List.find?_eq_none.mpr fun row hrow => by rw [hadmits.ui row hrow]; exact Bool.false_ne_true
  unfold isResumed at hresumed
  unfold planMigration
  dsimp only
  rw [hgroups, hui]
  dsimp only
  rw [hadmits.pin, if_neg Bool.false_ne_true, hresumed, Bool.not_true, Bool.false_and,
    if_neg Bool.false_ne_true]

end Plan

/-! ## The bundle and its imported form -/

theorem names_imported (codec : CwdCodec) (b : MigrationBundle) (history : HistoryPolicy) :
    (importedBundle codec b history).groups.map MigrationGroup.name =
      b.groups.map MigrationGroup.name := by
  obtain ⟨f, -, hgroups⟩ := groups_imported codec b history
  rw [hgroups, map_map]
  rfl

/-- The rows that a bundle owns are those its imported form owns. -/
theorem targetSubset_imported (codec : CwdCodec) (b : MigrationBundle) (history : HistoryPolicy)
    (target : MigrationTarget) :
    targetSubset (importedBundle codec b history) target = targetSubset b target := by
  unfold targetSubset
  rw [names_imported]
  cases history with
  | included => rfl
  | drop => rfl

theorem hasPriorRows_imported (codec : CwdCodec) (b : MigrationBundle) (history : HistoryPolicy) :
    hasPriorRows (importedBundle codec b history) = hasPriorRows b := by
  have hgroups : (importedBundle codec b history).groups.isEmpty = b.groups.isEmpty := by
    obtain ⟨f, -, hgroups⟩ := groups_imported codec b history
    rw [hgroups, isEmpty_map]
  have hdispatches : (importedBundle codec b history).dispatches.isEmpty =
    b.dispatches.isEmpty := by
    rw [dispatches_imported, isEmpty_map]
  unfold hasPriorRows
  rw [hgroups, hdispatches]
  cases history with
  | included => rfl
  | drop => rfl

theorem isEmpty_sortOn {R L : Type} [LinearOrder L] (key : R → L) (rows : List R) :
    (sortOn key rows).isEmpty = rows.isEmpty := by
  rw [Bool.eq_iff_iff, isEmpty_iff_length_eq_zero, isEmpty_iff_length_eq_zero,
    (sortOn_perm key rows).length_eq]

/-- Material tells whether there are rows. -/
theorem hasPriorRows_of_material {a b : MigrationBundle}
    (h : FingerprintMaterial.fromBundle a = FingerprintMaterial.fromBundle b) :
    hasPriorRows a = hasPriorRows b := by
  unfold FingerprintMaterial.fromBundle at h
  dsimp only at h
  rw [FingerprintMaterial.mk.injEq] at h
  obtain ⟨-, -, hgroups, hui, hdispatches, -, hpin⟩ := h
  have hgroups' := congrArg List.isEmpty hgroups
  have hdispatches' := congrArg List.isEmpty hdispatches
  rw [isEmpty_map, isEmpty_map] at hgroups'
  rw [isEmpty_map, isEmpty_map, isEmpty_sortOn, isEmpty_sortOn] at hdispatches'
  unfold hasPriorRows
  rw [hgroups', hui, hdispatches', hpin]

/-! ## A fresh import -/

section Fresh

variable {codec : CwdCodec} {digest : Text → Text} {db : Db} {b : MigrationBundle}
  {history : HistoryPolicy}
  (hdb : db.Ok) (hintact : db.Intact) (hb : FromSource b)
  (hadmits : Admits codec b (migrationTargetSnapshot db b.sessionName b.worktreePath) history)
  (hempty :
    (targetSubset b (migrationTargetSnapshot db b.sessionName b.worktreePath)).dispatches = [] ∧
    (targetSubset b (migrationTargetSnapshot db b.sessionName b.worktreePath)).uiState = [] ∧
    (targetSubset b (migrationTargetSnapshot db b.sessionName b.worktreePath)).pinState = none)

theorem sessionName_imported (codec : CwdCodec) (b : MigrationBundle) (history : HistoryPolicy) :
    (importedBundle codec b history).sessionName = b.sessionName := by
  cases history with
  | included | drop => rfl

theorem worktreePath_imported (codec : CwdCodec) (b : MigrationBundle) (history : HistoryPolicy) :
    (importedBundle codec b history).worktreePath = b.worktreePath := by
  cases history with
  | included | drop => rfl

theorem uiState_imported (codec : CwdCodec) (b : MigrationBundle) (history : HistoryPolicy) :
    (importedBundle codec b history).uiState = b.uiState := by
  cases history with
  | included | drop => rfl

theorem pinState_imported (codec : CwdCodec) (b : MigrationBundle) (history : HistoryPolicy) :
    (importedBundle codec b history).pinState = b.pinState := by
  cases history with
  | included | drop => rfl

include hdb hempty in
theorem no_dispatches : dispatchesForWorktree db b.worktreePath = [] := by
  rw [← targetSubset_dispatches hdb]
  exact hempty.1

include hdb hintact hb hadmits hempty in
theorem holds_importRows : Holds (importRows codec db b history).1
    (importedBundle codec b history) := by
  have hdb' := ok_importRows codec hdb hb history
  have hi := fromSource_imported codec hb history
  have hgroups := hadmits.groups
  have hui := hempty.2.1
  rw [← targetSubset_imported codec b history] at hui
  rw [← sessionName_imported codec b history, ← worktreePath_imported codec b history]
    at hgroups hui
  have heq := importRows_eq codec hdb hb history
  have hnone := no_dispatches hdb hempty
  constructor
  · exact fresh_groups hdb hi hgroups (by rw [heq])
  · exact fresh_tabs hdb hi hgroups hintact hdb' (by rw [heq])
  · exact fresh_ui hdb hi hui (by rw [heq, uiState_imported])
  · intro pin hpin
    rw [sessionName_imported]
    rw [pinState_imported] at hpin
    have hsessions : (importRows codec db b history).1.sessionState = pinnedSessions db b := by
      rw [heq]
    exact sessionPin_pinned hsessions hpin
  · rw [worktreePath_imported]
    exact fresh_dispatches hb hnone (by rw [heq]) codec hdb'
  · rw [worktreePath_imported]
    exact fresh_notes hb hnone (by rw [heq]) codec hintact hdb' (by rw [heq])

end Fresh

/-- A target that holds the imported form is planned as resumed. -/
theorem resumed_of_holds {codec : CwdCodec} (digest : Text → Text) {db : Db} (hdb : db.Ok)
    {b : MigrationBundle} (hb : FromSource b) (hrows : hasPriorRows b = true)
    {history : HistoryPolicy} (h : Holds db (importedBundle codec b history)) :
    Admits codec b (migrationTargetSnapshot db b.sessionName b.worktreePath) history ∧
      isResumed codec digest b (migrationTargetSnapshot db b.sessionName b.worktreePath) history =
      true := by
  have hi := fromSource_imported codec hb history
  have hmaterial := material_targetSubset hdb hi h
  rw [targetSubset_imported, sessionName_imported, worktreePath_imported] at hmaterial
  refine ⟨⟨?_, ?_, ?_⟩, ?_⟩
  · intro g hg
    have hnot := not_groupConflict hdb hi h hg
    rw [sessionName_imported, worktreePath_imported] at hnot
    exact hnot
  · intro row hrow
    rw [← uiState_imported codec b history] at hrow
    have hnot := not_uiConflict hdb h hrow
    rw [sessionName_imported, worktreePath_imported] at hnot
    exact hnot
  · have hnot := not_pinConflict h
    rw [sessionName_imported, worktreePath_imported] at hnot
    unfold pinConflict at hnot ⊢
    rw [pinState_imported] at hnot
    exact hnot
  · unfold isResumed fingerprint
    rw [hmaterial, beq_self_eq_true, Bool.true_and, hasPriorRows_of_material hmaterial,
      hasPriorRows_imported]
    exact hrows

/-! ## A resumed import -/

/-- The numbers a resumed import reports: the rows of the bundle beside those of the target. -/
def zippedIds (b : MigrationBundle) (rows : List MigrationDispatch) : List (Int × Int) :=
  (b.dispatches.zip rows).map fun p => (p.1.sourceId, p.2.sourceId)

/-- The target with its worktree registered. -/
def readied (db : Db) (b : MigrationBundle) : Db :=
  if b.worktree.isNone || (findWorktree db b.worktreePath).isSome then db
  else (b.worktree.map (insertWorktree db)).getD db

theorem readied_eq (db : Db) (b : MigrationBundle) :
    readied db b = { db with worktrees := (readied db b).worktrees } := by
  unfold readied
  split_ifs
  · rfl
  · cases b.worktree with
    | none => rfl
    | some w => rfl

/-- A worktree that is inserted is found. -/
theorem findWorktree_insertIgnore {rows : List MigrationWorktree} {w : MigrationWorktree} :
    ((insertIgnore MigrationWorktree.worktree rows w).find? fun r =>
      r.worktree = w.worktree).isSome = true := by
  rw [List.find?_isSome]
  unfold insertIgnore
  split_ifs with htaken
  · obtain ⟨r, hr, hkey⟩ := mem_map.mp htaken
    exact ⟨r, hr, decide_eq_true hkey⟩
  · exact ⟨w, mem_append_right _ (mem_singleton_self w), decide_eq_true rfl⟩

theorem findWorktree_registered {db db' : Db} {b : MigrationBundle} (hb : FromSource b)
    (h : db'.worktrees = registered db b) {w : MigrationWorktree} (hw : b.worktree = some w) :
    (findWorktree db' b.worktreePath).isSome = true := by
  unfold findWorktree
  rw [h, registered, hw, Option.map_some, Option.getD_some, ← hb.worktree w hw]
  exact findWorktree_insertIgnore

/-- A target that has its worktree is left as it is. -/
theorem readied_of_registered {db db' : Db} {b : MigrationBundle} (hb : FromSource b)
    (h : db'.worktrees = registered db b) : readied db' b = db' := by
  unfold readied
  rw [if_pos]
  rw [Bool.or_eq_true, Option.isNone_iff_eq_none]
  cases hw : b.worktree with
  | none => exact .inl rfl
  | some w => exact .inr (findWorktree_registered hb h hw)

theorem readied_readied {db : Db} {b : MigrationBundle} (hb : FromSource b) :
    readied (readied db b) b = readied db b := by
  by_cases hready : (b.worktree.isNone || (findWorktree db b.worktreePath).isSome) = true
  · have hself : readied db b = db := by rw [readied, if_pos hready]
    rw [hself, hself]
  · have hworktrees : (readied db b).worktrees = registered db b := by
      rw [readied, if_neg hready]
      rfl
    exact readied_of_registered hb hworktrees

/-- Only the registration differs in the snapshot. -/
theorem snapshot_readied (db : Db) (b : MigrationBundle) (session worktreePath : Text) :
    migrationTargetSnapshot (readied db b) session worktreePath =
      { migrationTargetSnapshot db session worktreePath with
        worktree := findWorktree (readied db b) worktreePath } := by
  rw [readied_eq]
  rfl

theorem pairwise_zip {α β : Type} {R : α → α → Prop} {S : β → β → Prop} {xs : List α} {ys : List β}
    (h : xs.Pairwise R) (h' : ys.Pairwise S) : (xs.zip ys).Pairwise fun p q => R p.1 q.1 ∧
    S p.2 q.2 := by
  induction xs generalizing ys with
  | nil => exact .nil
  | cons x xs ih =>
    cases ys with
    | nil => exact .nil
    | cons y ys =>
      obtain ⟨hx, hxs⟩ := pairwise_cons.mp h
      obtain ⟨hy, hys⟩ := pairwise_cons.mp h'
      rw [zip_cons_cons]
      refine .cons (fun p hp => ?_) (ih hxs hys)
      obtain ⟨hp1, hp2⟩ := of_mem_zip hp
      exact ⟨hx p.1 hp1, hy p.2 hp2⟩

theorem foldl_insertId_zip {b : MigrationBundle} (hb : FromSource b)
    (rows : List MigrationDispatch) :
    (b.dispatches.zip rows).foldl (fun m p => insertId p.1.sourceId p.2.sourceId m) [] =
      zippedIds b rows := by
  have hasc : Ascending Prod.fst (zippedIds b rows) := by
    have hall : rows.Pairwise fun _ _ => True := pairwise_of_forall fun _ _ => trivial
    exact pairwise_map.mpr ((pairwise_zip hb.dispatches hall).imp fun hpq => hpq.1)
  have hfold := foldl_insertId hasc (m := []) fun e he => absurd he not_mem_nil
  rw [nil_append, zippedIds, foldl_map] at hfold
  exact hfold

section Import

variable {codec : CwdCodec} {digest : Text → Text} {db : Db} (plan : MigrationPlan)
  {current : MigrationPlan}

/-- A resumed import registers the worktree and writes nothing else. -/
theorem importMigration_resumed (hb : FromSource plan.bundle)
    (hcurrent : planMigration codec digest plan.bundle
      (migrationTargetSnapshot db plan.bundle.sessionName plan.bundle.worktreePath) plan.history =
        .ok current)
    (hresumed : current.resumed = true) :
    importMigration codec digest db plan =
      (.ok { dispatchIdMap := zippedIds plan.bundle (dispatchesForWorktree db
        plan.bundle.worktreePath)
             fingerprint := plan.fingerprint }, readied db plan.bundle) := by
  have htarget : current.target =
      migrationTargetSnapshot db plan.bundle.sessionName plan.bundle.worktreePath := by
    rw [(planMigration_ok hcurrent).1]
  unfold importMigration importBody
  dsimp only
  rw [hcurrent]
  simp only [Except.bind, bind, hresumed, if_true, htarget, transaction]
  rw [← foldl_insertId_zip hb]
  unfold readied
  rfl

/-- An import that is not resumed writes the rows. -/
theorem importMigration_fresh
    (hcurrent : planMigration codec digest plan.bundle
      (migrationTargetSnapshot db plan.bundle.sessionName plan.bundle.worktreePath) plan.history =
        .ok current)
    (hresumed : current.resumed = false) (hconfirm : confirmMigration digest db current = false) :
    importMigration codec digest db plan =
      (.ok { dispatchIdMap := (importRows codec db plan.bundle plan.history).2
             fingerprint :=
               plan.fingerprint }, (importRows codec db plan.bundle plan.history).1) := by
  unfold importMigration importBody
  dsimp only
  rw [hcurrent]
  simp only [Except.bind, bind, hresumed, hconfirm, Bool.and_false, Bool.false_eq_true, if_false,
    transaction]

/-- A plan that fails fails in the transaction, and the target is as it was. -/
theorem importMigration_conflict {e : MigrationConflict}
    (hconflict : planMigration codec digest plan.bundle
      (migrationTargetSnapshot db plan.bundle.sessionName plan.bundle.worktreePath) plan.history =
        .error e) :
    importMigration codec digest db plan = (.error e, db) := by
  unfold importMigration importBody
  dsimp only
  rw [hconflict]
  rfl

end Import

/-! ## Parents of a resumed import -/

theorem getElem?_of_indexIn {ids : List Int} {id : Int} {n : Nat} (h : indexIn ids id = some n) :
    ids[n]? = some id := by
  obtain ⟨p, hlast, rfl⟩ := Option.map_eq_some_iff.mp h
  have hmem := mem_filter.mp (mem_of_getLast? hlast)
  have hid := of_decide_eq_true hmem.2
  rw [← hid]
  exact mem_zipIdx_iff_getElem?.mp hmem.1

theorem exists_indexIn {ids : List Int} {id : Int} (h : id ∈ ids) :
    ∃ n, indexIn ids id = some n := by
  obtain ⟨n, hn⟩ := mem_iff_getElem?.mp h
  have hmem : (id, n) ∈ ids.zipIdx.filter fun p => p.1 = id :=
    mem_filter.mpr ⟨mk_mem_zipIdx_iff_getElem?.mpr hn, decide_eq_true rfl⟩
  cases hlast : (ids.zipIdx.filter fun p => p.1 = id).getLast? with
  | none =>
    rw [List.getLast?_eq_none_iff.mp hlast] at hmem
    cases hmem
  | some p => exact ⟨p.2, by rw [indexIn, hlast]; rfl⟩

/-- Rows with one fingerprint have their parents in one place. -/
theorem parent_of_fingerprint {b : MigrationBundle} (hb : FromSource b) {history : HistoryPolicy}
    {rows : List MigrationDispatch}
    (h : rows.map (MigrationDispatch.fingerprint (rows.map MigrationDispatch.sourceId)) =
      (b.dispatches.map (importedRow history)).map
        (MigrationDispatch.fingerprint (b.dispatches.map MigrationDispatch.sourceId)))
    {n : Nat} {d row : MigrationDispatch} (hd : b.dispatches[n]? = some d)
    (hrow : rows[n]? = some row)
    {k v : Int} (hk : d.parentId = some k) (hv : lookupId (zippedIds b rows) k = some v) :
    row.parentId = some v := by
  have hnodup : ((zippedIds b rows).map Prod.fst).Nodup := by
    have hall : rows.Pairwise fun _ _ => True := pairwise_of_forall fun _ _ => trivial
    have hasc : Ascending Prod.fst (zippedIds b rows) :=
      pairwise_map.mpr ((pairwise_zip hb.dispatches hall).imp fun hpq => hpq.1)
    exact hasc.nodup_map
  -- the parent is at some place of the bundle
  obtain ⟨p, hp, heq⟩ := mem_map.mp (mem_of_lookupId hv)
  rw [Prod.mk.injEq] at heq
  have hkmem : k ∈ b.dispatches.map MigrationDispatch.sourceId := by
    rw [← heq.1]
    exact mem_map_of_mem (of_mem_zip hp).1
  obtain ⟨m, hm⟩ := exists_indexIn hkmem
  -- and at the same place of the target
  have hparent : row.parentId.bind (indexIn (rows.map MigrationDispatch.sourceId)) = some m := by
    have hat := congrArg (fun l => l[n]?) h
    simp only [List.getElem?_map, hd, hrow, Option.map_some, Option.some.injEq] at hat
    have hindex := congrArg DispatchFingerprint.parentIndex hat
    unfold MigrationDispatch.fingerprint at hindex
    rw [parentId_importedRow, hk] at hindex
    exact hindex.trans hm
  obtain ⟨z, hz, hzm⟩ := Option.bind_eq_some_iff.mp hparent
  have hz' := getElem?_of_indexIn hzm
  have hm' := getElem?_of_indexIn hm
  rw [List.getElem?_map] at hz' hm'
  obtain ⟨row', hrow', hid'⟩ := Option.map_eq_some_iff.mp hz'
  obtain ⟨d', hd', hid⟩ := Option.map_eq_some_iff.mp hm'
  have hpair : (k, z) ∈ zippedIds b rows := by
    refine mem_map.mpr ⟨(d', row'), ?_, by rw [hid, hid']⟩
    refine mem_iff_getElem?.mpr ⟨m, ?_⟩
    rw [List.getElem?_zip_eq_some]
    exact ⟨hd', hrow'⟩
  rw [hz, ← lookupId_of_mem hnodup hpair, hv]

/-- A resumed target has the rows of the bundle, up to their numbers. -/
theorem dispatches_of_resumed {codec : CwdCodec} {digest : Text → Text}
    (hdigest : Function.Injective digest)
    {db : Db} (hdb : db.Ok) {b : MigrationBundle} (hb : FromSource b) {history : HistoryPolicy}
    (h : isResumed codec digest b (migrationTargetSnapshot db b.sessionName b.worktreePath)
      history = true) :
    (dispatchesForWorktree db b.worktreePath).map (MigrationDispatch.fingerprint
        ((dispatchesForWorktree db b.worktreePath).map MigrationDispatch.sourceId)) =
      (b.dispatches.map (importedRow history)).map
        (MigrationDispatch.fingerprint (b.dispatches.map MigrationDispatch.sourceId)) := by
  have hi := fromSource_imported codec hb history
  unfold isResumed fingerprint at h
  rw [Bool.and_eq_true, beq_iff_eq] at h
  have hmaterial := json_injective (hdigest h.1)
  unfold FingerprintMaterial.fromBundle at hmaterial
  dsimp only at hmaterial
  rw [FingerprintMaterial.mk.injEq] at hmaterial
  have hdispatches := hmaterial.2.2.2.2.1
  have hids : (b.dispatches.map (importedRow history)).map MigrationDispatch.sourceId =
      b.dispatches.map MigrationDispatch.sourceId := by
    rw [map_map]
    exact map_congr_left fun d _ => sourceId_importedRow history d
  rw [targetSubset_dispatches hdb, sortOn_of_ascending (ascending_dispatchesForWorktree hdb _),
    sortOn_of_ascending hi.dispatches, dispatches_imported, hids] at hdispatches
  exact hdispatches

/-! ## The theorem -/

/-- What an import of `b` into `db` has achieved when it ends in `db'` with the map `ids`. -/
structure Imported (b : MigrationBundle) (db db' : Db) (ids : List (Int × Int)) : Prop where
  /-- Every dispatch has a number, and the new numbers are in the order of the old ones. -/
  domain : ids.map Prod.fst = b.dispatches.map MigrationDispatch.sourceId
  ordered : ids.Pairwise fun p q => p.1 < q.1 ∧ p.2 < q.2
  /-- A parent in the bundle is mapped, and any other is not written. -/
  parents : ∀ d ∈ b.dispatches, ∃ row ∈ db'.dispatches,
    lookupId ids d.sourceId = some row.sourceId ∧
    (∀ k v, d.parentId = some k → lookupId ids k = some v → row.parentId = some v) ∧
    (row ∉ db.dispatches → d.parentId.bind (lookupId ids) = none → row.parentId = none)
  /-- Rows that are written are free of what belongs to the source. -/
  dispatches : ∀ row ∈ db'.dispatches, row ∉ db.dispatches →
    row.sessionId = none ∧ row.artifactPath = none ∧ row.chunkPath = none
  tabs : ∀ t ∈ db'.groupTabs, t ∉ db.groupTabs → t.paneSessions = []

theorem imported_resumed {codec : CwdCodec} {digest : Text → Text}
    (hdigest : Function.Injective digest)
    {db : Db} (hdb : db.Ok) {b : MigrationBundle} (hb : FromSource b) {history : HistoryPolicy}
    (h : isResumed codec digest b (migrationTargetSnapshot db b.sessionName b.worktreePath)
      history = true) :
    Imported b db (readied db b) (zippedIds b (dispatchesForWorktree db b.worktreePath)) := by
  have hprint := dispatches_of_resumed hdigest hdb hb h
  have hlength : (dispatchesForWorktree db b.worktreePath).length = b.dispatches.length := by
    have hlen := congrArg List.length hprint
    rw [length_map, length_map, length_map] at hlen
    exact hlen
  have hrows := ascending_dispatchesForWorktree hdb b.worktreePath
  have hordered : (zippedIds b (dispatchesForWorktree db b.worktreePath)).Pairwise
      fun p q => p.1 < q.1 ∧ p.2 < q.2 := pairwise_map.mpr (pairwise_zip hb.dispatches hrows)
  have hnodup : ((zippedIds b (dispatchesForWorktree db b.worktreePath)).map Prod.fst).Nodup := by
    have hasc : Ascending Prod.fst (zippedIds b (dispatchesForWorktree db b.worktreePath)) :=
      hordered.imp fun hpq => hpq.1
    exact hasc.nodup_map
  have hdispatches : (readied db b).dispatches = db.dispatches := by rw [readied_eq]
  have htabs : (readied db b).groupTabs = db.groupTabs := by rw [readied_eq]
  constructor
  · rw [zippedIds, map_map]
    calc (b.dispatches.zip (dispatchesForWorktree db b.worktreePath)).map (fun p => p.1.sourceId)
        = ((b.dispatches.zip (dispatchesForWorktree db b.worktreePath)).map Prod.fst).map
            MigrationDispatch.sourceId := by rw [map_map]; rfl
      _ = b.dispatches.map MigrationDispatch.sourceId := by rw [map_fst_zip (by omega)]
  · exact hordered
  · intro d hd
    obtain ⟨n, hn⟩ := mem_iff_getElem?.mp hd
    obtain ⟨hlt, -⟩ := List.getElem?_eq_some_iff.mp hn
    have hrow : (dispatchesForWorktree db b.worktreePath)[n]? =
        some (dispatchesForWorktree db b.worktreePath)[n] := List.getElem?_eq_getElem (by omega)
    have hmem := mem_of_getElem? hrow
    refine ⟨_, hdispatches ▸ (mem_dispatchesForWorktree.mp hmem).1, ?_, ?_, ?_⟩
    · refine lookupId_of_mem hnodup (mem_map.mpr ⟨(d, _), ?_, rfl⟩)
      refine mem_iff_getElem?.mpr ⟨n, ?_⟩
      rw [List.getElem?_zip_eq_some]
      exact ⟨hn, hrow⟩
    · intro k v hk hv
      exact parent_of_fingerprint hb hprint hn hrow hk hv
    · intro hnew
      exact absurd (mem_dispatchesForWorktree.mp hmem).1 hnew
  · intro row hrow hnew
    rw [hdispatches] at hrow
    exact absurd hrow hnew
  · intro t ht hnew
    rw [htabs] at ht
    exact absurd ht hnew

theorem imported_fresh (codec : CwdCodec) {db : Db} (hdb : db.Ok) {b : MigrationBundle}
    (hb : FromSource b) (history : HistoryPolicy) :
    Imported b db (importRows codec db b history).1 (importRows codec db b history).2 := by
  have hi := fromSource_imported codec hb history
  rw [importRows_eq codec hdb hb]
  dsimp only
  constructor
  · rw [idPairs, map_map]
    exact map_numbered db.dispatchSeq b.dispatches MigrationDispatch.sourceId
  · exact pairwise_map.mpr (pairwise_numbered hb.dispatches db.dispatchSeq)
  · intro d hd
    obtain ⟨n, hn⟩ := exists_numbered db.dispatchSeq hd
    refine ⟨storedDispatch history (idPairs db.dispatchSeq b.dispatches) (d, n),
      mem_append_right _ (mem_map_of_mem hn), lookupId_idPairs hb.dispatches _ hn, ?_, ?_⟩
    · intro k v hk hv
      unfold storedDispatch
      rw [hk]
      exact hv
    · exact fun _ hnone => hnone
  · intro row hrow hnew
    obtain ⟨p, -, rfl⟩ := mem_map.mp ((mem_append.mp hrow).resolve_left hnew)
    unfold storedDispatch
    rw [importedRow_kept]
    exact ⟨rfl, rfl, rfl⟩
  · intro t ht hnew
    rw [mem_insertAll (nodup_storedTabs hi)] at ht
    obtain ⟨g, -, t0, -, rfl⟩ := mem_storedTabs.mp (ht.resolve_left hnew).1
    rfl

/-- What follows for a target that is planned as resumed and has its worktree. -/
theorem confirmed_again {codec : CwdCodec} {digest : Text → Text} {db' : Db} {b : MigrationBundle}
    (hb : FromSource b) {history : HistoryPolicy} {plan : MigrationPlan} (hbundle : plan.bundle = b)
    (hprint : plan.fingerprint = fingerprint digest (importedBundle codec b history))
    (hadmits : Admits codec b (migrationTargetSnapshot db' b.sessionName b.worktreePath) history)
    (hresumed : isResumed codec digest b (migrationTargetSnapshot db' b.sessionName b.worktreePath)
      history = true)
    (hready : readied db' b = db') :
    confirmMigration digest db' plan = true ∧ ∃ plan', planMigration codec digest b
          (migrationTargetSnapshot db' b.sessionName b.worktreePath) history = .ok plan' ∧
        plan'.resumed = true ∧ plan'.fingerprint = plan.fingerprint ∧
        ∃ result', importMigration codec digest db' plan' = (.ok result', db') ∧
          result'.dispatchIdMap = zippedIds b (dispatchesForWorktree db' b.worktreePath) := by
  let plan' : MigrationPlan :=
    { bundle := b, target := migrationTargetSnapshot db' b.sessionName b.worktreePath,
      fingerprint := fingerprint digest (importedBundle codec b history), resumed := true,
      history }
  have hplan : planMigration codec digest b
    (migrationTargetSnapshot db' b.sessionName b.worktreePath)
      history = .ok plan' := planMigration_resumed hadmits hresumed
  have himport := importMigration_resumed plan' hb hplan rfl
  rw [show readied db' plan'.bundle = db' from hready] at himport
  refine ⟨?_, plan', hplan, rfl, hprint.symm, _, himport, rfl⟩
  unfold isResumed at hresumed
  rw [Bool.and_eq_true] at hresumed
  unfold confirmMigration
  rw [hbundle, hprint]
  exact hresumed.1

/-- The rows of a bundle beside the rows they are stored as. -/
theorem zip_numbered (seq : Int) (ds : List MigrationDispatch) (history : HistoryPolicy)
    (ids : List (Int × Int)) :
    (ds.zip ((numbered seq ds).map (storedDispatch history ids))).map
      (fun p => (p.1.sourceId, p.2.sourceId)) = idPairs seq ds := by
  unfold idPairs
  induction ds generalizing seq with
  | nil => rfl
  | cons d ds ih =>
    rw [numbered, map_cons, zip_cons_cons, map_cons, ih, map_cons]
    rfl

/-- **A migration is confirmed, and changes nothing when it is repeated.** -/
theorem import_confirmable (codec : CwdCodec) (digest : Text → Text)
    (hdigest : Function.Injective digest) :
    (∀ (db : Db) (b : MigrationBundle) (history : HistoryPolicy) (plan : MigrationPlan),
      db.Ok → db.Intact → FromSource b → hasPriorRows b = true →
      planMigration codec digest b (migrationTargetSnapshot db b.sessionName b.worktreePath)
        history =
        .ok plan →
      ∃ result db', importMigration codec digest db plan = (.ok result, db') ∧
        confirmMigration digest db' plan = true ∧
        Imported b db db' result.dispatchIdMap ∧ ∃ plan', planMigration codec digest b
            (migrationTargetSnapshot db' b.sessionName b.worktreePath) history = .ok plan' ∧
          plan'.resumed = true ∧ plan'.fingerprint = plan.fingerprint ∧
          ∃ result', importMigration codec digest db' plan' = (.ok result', db') ∧
            result'.dispatchIdMap = result.dispatchIdMap) ∧
    (∀ (db : Db) (plan : MigrationPlan) (conflict : MigrationConflict),
      planMigration codec digest plan.bundle
        (migrationTargetSnapshot db plan.bundle.sessionName plan.bundle.worktreePath) plan.history =
          .error conflict →
      importMigration codec digest db plan = (.error conflict, db)) := by
  refine ⟨?_, fun db plan conflict h => importMigration_conflict plan h⟩
  intro db b history plan hdb hintact hb hrows hplan
  obtain ⟨hfields, hadmits, hempty⟩ := planMigration_ok hplan
  have hbundle : plan.bundle = b := by rw [hfields]
  have hprint : plan.fingerprint = fingerprint digest (importedBundle codec b history) := by
    rw [hfields]
  have hflag : plan.resumed = isResumed codec digest b
      (migrationTargetSnapshot db b.sessionName b.worktreePath) history := by rw [hfields]
  have hcurrent : planMigration codec digest plan.bundle
      (migrationTargetSnapshot db plan.bundle.sessionName plan.bundle.worktreePath) plan.history =
        .ok plan := by
    have hhistory : plan.history = history := by rw [hfields]
    rw [hbundle, hhistory]
    exact hplan
  cases hresumed : isResumed codec digest b
      (migrationTargetSnapshot db b.sessionName b.worktreePath) history with
  | true =>
    have hadmits' :
      Admits codec b (migrationTargetSnapshot (readied db b) b.sessionName b.worktreePath)
        history := by
      rw [snapshot_readied]
      exact ⟨hadmits.groups, hadmits.ui, hadmits.pin⟩
    have hresumed' : isResumed codec digest b
        (migrationTargetSnapshot (readied db b) b.sessionName b.worktreePath) history = true := by
      rw [snapshot_readied]
      exact hresumed
    have hrows' : dispatchesForWorktree (readied db b) b.worktreePath =
        dispatchesForWorktree db b.worktreePath := by
      rw [readied_eq]
      rfl
    have himport := importMigration_resumed plan (hbundle ▸ hb) hcurrent (hflag.trans hresumed)
    obtain ⟨hconfirm, hagain⟩ :=
      confirmed_again hb hbundle hprint hadmits' hresumed' (readied_readied hb)
    rw [hbundle] at himport
    rw [hrows'] at hagain
    exact ⟨_, _, himport, hconfirm, imported_resumed hdigest hdb hb hresumed, hagain⟩
  | false =>
    have hholds := holds_importRows hdb hintact hb hadmits (hempty hresumed)
    have hdb' := ok_importRows codec hdb hb history
    obtain ⟨hadmits', hresumed'⟩ := resumed_of_holds digest hdb' hb hrows hholds
    have hready : readied (importRows codec db b history).1 b =
      (importRows codec db b history).1 := by
      have hworktrees : (importRows codec db b history).1.worktrees = registered db b := by
        rw [importRows_eq codec hdb hb]
      exact readied_of_registered hb hworktrees
    -- a target with the fingerprint would have been planned as resumed
    have hnot : confirmMigration digest db plan = false := by
      unfold confirmMigration
      by_contra hconfirm
      rw [Bool.not_eq_false, beq_iff_eq, hbundle, hprint] at hconfirm
      have hprior := hasPriorRows_of_material (json_injective (hdigest hconfirm))
      rw [hasPriorRows_imported, hrows] at hprior
      unfold isResumed at hresumed
      rw [hprior, Bool.and_true, beq_eq_false_iff_ne] at hresumed
      exact hresumed hconfirm
    have hids : zippedIds b (dispatchesForWorktree (importRows codec db b history).1
      b.worktreePath) = (importRows codec db b history).2 := by
      have heq := importRows_eq codec hdb hb history
      rw [fresh_rows hb (no_dispatches hdb (hempty hresumed)) (by rw [heq]) hdb', heq]
      exact zip_numbered db.dispatchSeq b.dispatches history _
    have himport := importMigration_fresh plan hcurrent (hflag.trans hresumed) hnot
    have hhistory : plan.history = history := by rw [hfields]
    obtain ⟨hconfirm, hagain⟩ := confirmed_again hb hbundle hprint hadmits' hresumed' hready
    rw [hbundle, hhistory] at himport
    rw [hids] at hagain
    exact ⟨_, _, himport, hconfirm, imported_fresh codec hdb hb history, hagain⟩

/-! ## Two sources -/

def emptyDb : Db :=
  { worktrees := [], tabGroups := [], groupTabs := [], uiState := [], sessionState := [],
    dispatches := [], dispatchSeq := 0, notes := [], noteSeq := 0 }

/-- A source with nothing but a registered worktree. -/
def worktreeOnly : Db :=
  { emptyDb with
    worktrees := [{
      worktree := "/wt".toList, sessionName := "s".toList, tabName := [], repoRoot := [],
      branch := [], agent := [], createdAt := 0, location := [], position := 0,
      sandboxBackend := none, observedBackend := none, folderId := none, envName := none }] }

/-- The plan for a target after an import into it. -/
def plannedAgain (codec : CwdCodec) (digest : Text → Text) (db : Db) (b : MigrationBundle)
    (history : HistoryPolicy) : Option MigrationPlan :=
  match planMigration codec digest b (migrationTargetSnapshot db b.sessionName b.worktreePath)
    history with
  | .error _ => none
  | .ok plan =>
    match importMigration codec digest db plan with
    | (.error _, _) => none
    | (.ok _, db') =>
      (planMigration codec digest b (migrationTargetSnapshot db' b.sessionName b.worktreePath)
        history).toOption

/-- A bundle without rows is imported, and not planned as resumed. -/
theorem worktree_only_not_resumed :
    (plannedAgain ascendingCodec id emptyDb
      (migrationSnapshot worktreeOnly "a".toList "b".toList "s".toList "/wt".toList) .drop).map
        MigrationPlan.resumed = some false := by
  decide +kernel

/-- A worker that is running, with a child and a note. -/
def sampleSource : Db :=
  { worktreeOnly with
    tabGroups := [{
      sessionName := "s".toList, name := "g".toList, kind := "branch".toList,
      worktree := "/wt".toList, ordinal := 0, activeTab := 0 }]
    groupTabs := [{
      sessionName := "s".toList, groupName := "g".toList, ordinal := 0, title := [],
      paneTree := [], focusedPane := 0, paneCwds := [], paneCmds := [],
      paneSessions := "x".toList, scrollbackSnapshot := [] }]
    dispatches := [{
        sourceId := 4, issueId := [], worktreePath := "/wt".toList, agentName := [],
        dispatchedAtMs := 0, status := "running".toList, stage := none, parentId := some 2,
        sessionId := some "x".toList, artifactPath := none, note := none, chunkPath := none,
        report := none, chunkScope := none },
      { sourceId := 7, issueId := [], worktreePath := "/wt".toList, agentName := [],
        dispatchedAtMs := 0, status := "done".toList, stage := none, parentId := some 4,
        sessionId := none, artifactPath := some "p".toList, note := none, chunkPath := none,
        report := none, chunkScope := none }]
    dispatchSeq := 7
    notes := [{ sourceId := 1, dispatchId := 4, createdAtMs := 0, text := [] }]
    noteSeq := 1 }

def sampleMoved : MigrationBundle :=
  migrationSnapshot sampleSource "a".toList "b".toList "s".toList "/wt".toList

theorem import_confirmable_sample :
    ∃ plan result db', importMigration ascendingCodec id emptyDb plan = (.ok result, db') ∧
      confirmMigration id db' plan = true ∧
      Imported sampleMoved emptyDb db' result.dispatchIdMap := by
  have hsource : sampleSource.Ok := by
    constructor
    all_goals decide +kernel
  have hempty : emptyDb.Ok := by
    constructor
    all_goals decide +kernel
  have hintact : emptyDb.Intact := by
    constructor
    all_goals decide +kernel
  have hb : FromSource sampleMoved := fromSource_migrationSnapshot hsource _ _ _ _
  have hsome : (planMigration ascendingCodec id sampleMoved
      (migrationTargetSnapshot emptyDb sampleMoved.sessionName sampleMoved.worktreePath)
        .included).toOption.isSome = true := by
    decide +kernel
  cases hplan : planMigration ascendingCodec id sampleMoved
      (migrationTargetSnapshot emptyDb sampleMoved.sessionName sampleMoved.worktreePath) .included
        with
  | error e =>
    rw [hplan] at hsome
    cases hsome
  | ok plan =>
    obtain ⟨result, db', himport, hconfirm, himported, -⟩ :=
      (import_confirmable ascendingCodec id Function.injective_id).1 emptyDb sampleMoved
        .included plan
        hempty hintact hb (by decide +kernel) hplan
    exact ⟨plan, result, db', himport, hconfirm, himported⟩

end Thegn.Migration
