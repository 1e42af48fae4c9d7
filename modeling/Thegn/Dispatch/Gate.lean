import Thegn.Dispatch.Claim
import Thegn.Pipeline.Admission

set_option autoImplicit false

/-! # What the scope gate decides

The gate of a claim reads the rows once: the scopes of the active siblings come from active rows
only, the candidates for `after` from all of them. A claim passes when its files collide with no
active sibling it does not name under `overlaps`, and every chunk it runs after is done.
-/

namespace Thegn.Dispatch

open Text Pipeline List

variable {new : NewDispatch} {rows : List AgentDispatch}

/-! ## Reading the rows -/

/-- What a row adds to the candidates for `after`. -/
def candidate (new : NewDispatch) (row : AgentDispatch) : Option AfterCandidate :=
  if row.stage = new.stage then (siblingPath new row).map fun path => ⟨row.id, path, row.status⟩
    else none

/-- What a row adds to the active siblings. -/
def siblingOf (new : NewDispatch) (row : AgentDispatch) : Except GateStop (List ActiveScope) :=
  match siblingPath new row with
  | none => .ok []
  | some path =>
    if row.status.isActive then
      match row.chunkScope with
      | none => .error (.refused (noSnapshotReason row.id path))
      | some raw =>
        match decodeChunkScope raw with
        | .error e => .error (.failed (.corruptScope row.id e))
        | .ok files => .ok [⟨row.id, chunkName path, files⟩]
    else .ok []

/-- One step of the loop. -/
theorem collectSiblings_cons (row : AgentDispatch) :
    collectSiblings new (row :: rows) = (do
      let here ← siblingOf new row
      let rest ← collectSiblings new rows
      pure ⟨here ++ rest.active, (candidate new row).toList ++ rest.after⟩) := by
  rw [collectSiblings]
  unfold siblingOf candidate
  cases siblingPath new row with
  | none =>
    -- a row of another issue or worktree, or without a chunk, adds nothing
    have hnone : (if row.stage = new.stage then (none : Option Text).map fun path =>
        (⟨row.id, path, row.status⟩ : AfterCandidate) else none) = none := by
      split_ifs <;> rfl
    rw [hnone]
    cases collectSiblings new rows <;> rfl
  | some path =>
    have hlist : (if row.stage = new.stage then (some path).map fun path =>
        (⟨row.id, path, row.status⟩ : AfterCandidate) else none).toList
        = if row.stage = new.stage then [⟨row.id, path, row.status⟩] else [] := by
      split_ifs <;> rfl
    rw [hlist]
    dsimp only
    generalize (if row.stage = new.stage then [(⟨row.id, path, row.status⟩ : AfterCandidate)]
      else []) = candidates
    by_cases hactive : row.status.isActive = true
    · rw [if_pos hactive, if_pos hactive]
      cases row.chunkScope with
      | none => rfl
      | some raw =>
        dsimp only
        cases decodeChunkScope raw with
        | error e => rfl
        | ok files => cases collectSiblings new rows <;> rfl
    · rw [if_neg hactive, if_neg hactive]
      cases collectSiblings new rows <;> rfl

theorem collectSiblings_after {s : Siblings} (h : collectSiblings new rows = .ok s) :
    s.after = rows.filterMap (candidate new) := by
  induction rows generalizing s with
  | nil =>
    cases h
    rfl
  | cons row rows ih =>
    rw [collectSiblings_cons] at h
    obtain ⟨here, -, h⟩ := bind_ok h
    obtain ⟨rest, hrest, h⟩ := bind_ok h
    cases h
    rw [filterMap_cons, ih hrest]
    cases candidate new row <;> rfl

/-- The active siblings, or why they cannot be read. -/
def activeSiblings (new : NewDispatch) (rows : List AgentDispatch) :
    Except GateStop (List ActiveScope) :=
  (collectSiblings new rows).map (·.active)

theorem activeSiblings_cons (row : AgentDispatch) :
    activeSiblings new (row :: rows) = (do
      let here ← siblingOf new row
      let rest ← activeSiblings new rows
      pure (here ++ rest)) := by
  unfold activeSiblings
  rw [collectSiblings_cons]
  cases siblingOf new row with
  | error e => rfl
  | ok here => cases collectSiblings new rows <;> rfl

/-- A terminal row is no active sibling. -/
theorem siblingOf_terminal {row : AgentDispatch} (h : row.status.isActive = false) :
    siblingOf new row = .ok [] := by
  unfold siblingOf
  cases siblingPath new row with
  | none => rfl
  | some path =>
    dsimp only
    rw [if_neg (by rw [h]; exact Bool.false_ne_true)]

/-- The active siblings do not depend on which terminal rows are read. -/
theorem activeSiblings_filter {keep : AgentDispatch → Bool}
    (hkeep : ∀ r, r.status.isActive = true → keep r = true) :
    activeSiblings new (rows.filter keep) = activeSiblings new rows := by
  induction rows with
  | nil => rfl
  | cons row rows ih =>
    rw [activeSiblings_cons, filter_cons]
    split_ifs with hrow
    · rw [activeSiblings_cons, ih]
    · have hterminal : row.status.isActive = false :=
        Bool.eq_false_iff.mpr fun hactive => hrow (hkeep row hactive)
      rw [siblingOf_terminal hterminal, ih]
      cases activeSiblings new rows <;> rfl

/-- Every active sibling is read. -/
theorem mem_activeSiblings {active : List ActiveScope} (h : activeSiblings new rows = .ok active)
    {row : AgentDispatch}
    (hrow : row ∈ rows) {path : Text} (hpath : siblingPath new row = some path)
    (hactive : row.status.isActive = true) :
    ∃ raw files, row.chunkScope = some raw ∧ decodeChunkScope raw = .ok files ∧
      (⟨row.id, chunkName path, files⟩ : ActiveScope) ∈ active := by
  induction rows generalizing active with
  | nil => cases hrow
  | cons first rows ih =>
    rw [activeSiblings_cons] at h
    obtain ⟨here, hhere, h⟩ := bind_ok h
    obtain ⟨rest, hrest, h⟩ := bind_ok h
    cases h
    rcases mem_cons.mp hrow with rfl | hrow
    · unfold siblingOf at hhere
      rw [hpath] at hhere
      dsimp only at hhere
      rw [if_pos hactive] at hhere
      cases hscope : row.chunkScope with
      | none =>
        rw [hscope] at hhere
        cases hhere
      | some raw =>
        rw [hscope] at hhere
        dsimp only at hhere
        cases hfiles : decodeChunkScope raw with
        | error e =>
          rw [hfiles] at hhere
          cases hhere
        | ok files =>
          rw [hfiles] at hhere
          cases hhere
          exact ⟨raw, files, rfl, hfiles, mem_append_left _ (mem_singleton.mpr rfl)⟩
    · obtain ⟨raw, files, hscope, hfiles, hmem⟩ := ih hrest hrow
      exact ⟨raw, files, hscope, hfiles, mem_append_right _ hmem⟩

/-! ## Conflicts -/

/-- A conflict is with a sibling of the list, over at least one pair of patterns. -/
theorem conflicts_mem {scope : ChunkScope} {active : List ActiveScope} {i work : Nat}
    {overlaps : List (Nat × List (Text × Text))}
    (h : conflicts scope active i work = .ok overlaps) :
    ∀ o ∈ overlaps, i ≤ o.1 ∧ o.1 < i + active.length ∧ o.2 ≠ [] := by
  induction active generalizing i work overlaps with
  | nil =>
    cases h
    simp
  | cons sib active ih =>
    rw [conflicts] at h
    have hshift : ∀ {rest : List (Nat × List (Text × Text))} {work : Nat},
        conflicts scope active (i + 1) work = .ok rest →
        ∀ o ∈ rest, i ≤ o.1 ∧ o.1 < i + (active.length + 1) ∧ o.2 ≠ [] := by
      intro rest work hrest o ho
      obtain ⟨hle, hlt, hne⟩ := ih hrest o ho
      exact ⟨by omega, by omega, hne⟩
    rw [length_cons]
    split_ifs at h
    · exact hshift h
    · obtain ⟨⟨pairs, work1⟩, -, h⟩ := bind_ok h
      obtain ⟨rest, hrest, h⟩ := bind_ok h
      cases h
      split_ifs with hempty
      · exact hshift hrest
      · intro o ho
        rcases mem_cons.mp ho with rfl | ho
        · exact ⟨Nat.le_refl i, by omega, fun hnil => hempty (List.isEmpty_iff.mpr hnil)⟩
        · exact hshift hrest o ho

/-- The verdict has no reason to refuse exactly when there is no conflict. -/
theorem verdictReasons_nil (path : Text) (scope : ChunkScope) (active : List ActiveScope)
    (done : Finset Text) :
    verdictReasons path active (verdict scope active done) = [] ↔
    conflicts scope active 0 0 = .ok [] := by
  unfold verdict
  cases hc : conflicts scope active 0 0 with
  | error e => simp [verdictReasons]
  | ok overlaps =>
    cases overlaps with
    | nil =>
      dsimp only
      split <;> simp [verdictReasons]
    | cons o rest =>
      obtain ⟨-, hlt, hne⟩ := conflicts_mem hc o (.head _)
      rw [Nat.zero_add] at hlt
      simp [verdictReasons, conflictReasons, List.getElem?_eq_getElem hlt, hne]

/-! ## Chunks to run after -/

theorem afterUnmet_nil (after : List Text) (done : Finset Text) :
    afterUnmet after done = [] ↔ ∀ name ∈ after, name ∈ done := by
  have hfold : ∀ (after : List Text) (unmet : List Text),
      after.foldl (fun unmet name => if name ∉ done ∧ name ∉ unmet then unmet ++ [name] else unmet)
        unmet = [] ↔ unmet = [] ∧ ∀ name ∈ after, name ∈ done := by
    intro after
    induction after with
    | nil => simp
    | cons name after ih =>
      intro unmet
      rw [foldl_cons, ih]
      split_ifs with hnew
      · simp [hnew.1]
      · rw [not_and_or, not_not, not_not] at hnew
        constructor
        · rintro ⟨rfl, hrest⟩
          exact ⟨rfl, fun n hn => (mem_cons.mp hn).elim (fun h =>
            h ▸ hnew.resolve_right not_mem_nil) (hrest n)⟩
        · rintro ⟨rfl, hall⟩
          exact ⟨rfl, fun n hn => hall n (.tail _ hn)⟩
  unfold afterUnmet
  rw [hfold]
  exact and_iff_right rfl

theorem chunkDone_of_attempts_nil {candidates : List AfterCandidate} {name : Text}
    (h : attemptsOf candidates name = []) : chunkDone candidates name = false := by
  unfold chunkDone
  rw [h]
  rfl

theorem mem_doneNames {candidates : List AfterCandidate} {name : Text} :
    name ∈ doneNames candidates ↔ chunkDone candidates name = true := by
  unfold doneNames
  rw [mem_toFinset, mem_filter, and_iff_right_iff_imp]
  intro hdone
  cases hattempts : attemptsOf candidates name with
  | nil =>
    rw [chunkDone_of_attempts_nil hattempts] at hdone
    cases hdone
  | cons c rest =>
    have hc : c ∈ attemptsOf candidates name := by
      rw [hattempts]
      exact .head _
    obtain ⟨hmem, hname⟩ := mem_filter.mp hc
    rw [Bool.and_eq_true, decide_eq_true_eq] at hname
    exact mem_filterMap.mpr ⟨c, hmem, hname.1⟩

/-! ## Passing the gate -/

theorem gateReasons_nil (p : PreparedChunkAdmission) (s : Siblings) :
    gateReasons new p s = [] ↔ conflicts p.scope s.active 0 0 = .ok [] ∧ ∀ name ∈ p.scope.after,
        chunkDone s.after name = true := by
  unfold gateReasons
  dsimp only
  rw [append_eq_nil_iff, verdictReasons_nil, map_eq_nil_iff, afterUnmet_nil]
  refine and_congr_right fun _ => forall_congr' fun name => forall_congr' fun _ => mem_doneNames

/-- **When a claim passes the gate.** -/
theorem scopeGate_ok (p : PreparedChunkAdmission) :
    scopeGate new p rows = .ok () ↔
      ∃ active, activeSiblings new rows = .ok active ∧ conflicts p.scope active 0 0 = .ok [] ∧
        ∀ name ∈ p.scope.after, chunkDone (rows.filterMap (candidate new)) name = true := by
  unfold scopeGate activeSiblings
  cases hs : collectSiblings new rows with
  | error e =>
    constructor
    · intro h
      cases h
    · rintro ⟨active, h, -⟩
      cases h
  | ok s =>
    simp only [bind, Except.bind, Except.map]
    rw [← collectSiblings_after hs]
    constructor
    · intro h
      split_ifs at h with hreasons
      rw [not_not] at hreasons
      exact ⟨s.active, rfl, (gateReasons_nil p s).mp hreasons⟩
    · rintro ⟨active, h, hclear⟩
      cases h
      rw [if_neg (not_not.mpr ((gateReasons_nil p s).mpr hclear))]
      rfl

end Thegn.Dispatch
