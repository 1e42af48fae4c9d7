import Thegn.Dispatch.Gate

set_option autoImplicit false

/-! # The rows that an admission reads

An admission reads the active rows, and the terminal rows whose issue is spelled as the claim spells
it, while the gate compares issues by `sameIssue`. Duplicates, slots and scopes are matters of
active rows, so nothing depends on the terminal rows that are left out, but for the chunks that a
claim runs after.
-/

namespace Thegn.Dispatch

open Text Pipeline List

/-! ## The newest attempt -/

theorem newestAttempt_fold (attempts : List AfterCandidate) (best : AfterCandidate) :
    ∃ a, attempts.foldl (fun best a =>
        match best with
        | none => some a
        | some b => if b.row ≤ a.row then some a else some b) (some best) = some a ∧
      a ∈ best :: attempts ∧ ∀ b ∈ best :: attempts, b.row ≤ a.row := by
  induction attempts generalizing best with
  | nil => exact ⟨best, rfl, .head _, fun b hb => by rw [mem_singleton.mp hb]⟩
  | cons c attempts ih =>
    rw [foldl_cons]
    dsimp only
    split_ifs with hle
    · obtain ⟨a, heq, hmem, hmax⟩ := ih c
      refine ⟨a, heq, .tail _ hmem, fun b hb => ?_⟩
      rcases mem_cons.mp hb with rfl | hb
      · exact hle.trans (hmax c (.head _))
      · exact hmax b hb
    · obtain ⟨a, heq, hmem, hmax⟩ := ih best
      refine ⟨a, heq, ?_, fun b hb => ?_⟩
      · rcases mem_cons.mp hmem with rfl | hmem
        · exact .head _
        · exact .tail _ (.tail _ hmem)
      · rcases mem_cons.mp hb with rfl | hb
        · exact hmax b (.head _)
        · rcases mem_cons.mp hb with rfl | hb
          · exact (Int.le_of_not_le hle).trans (hmax best (.head _))
          · exact hmax b (.tail _ hb)

theorem newestAttempt_some {attempts : List AfterCandidate} (h : attempts ≠ []) :
    ∃ a, newestAttempt attempts = some a ∧ a ∈ attempts ∧ ∀ b ∈ attempts, b.row ≤ a.row := by
  cases attempts with
  | nil => exact absurd rfl h
  | cons c attempts => exact newestAttempt_fold attempts c

/-- A chunk name is done when its newest attempt is, and all attempts have the same path. -/
theorem chunkDone_iff {candidates : List AfterCandidate} {name : Text}
    (hrows : ∀ a ∈ candidates, ∀ b ∈ candidates, a.row = b.row → a = b) :
    chunkDone candidates name = true ↔
      ∃ a ∈ attemptsOf candidates name, isFinished a.status = true ∧
        ∀ b ∈ attemptsOf candidates name, b.path = a.path ∧ b.row ≤ a.row := by
  have hsub : ∀ a ∈ attemptsOf candidates name, a ∈ candidates := fun a ha => (mem_filter.mp ha).1
  unfold chunkDone governingAttempt
  by_cases hamb : ambiguousAttempts (attemptsOf candidates name) = true
  · rw [if_pos hamb]
    constructor
    · intro h
      cases h
    · rintro ⟨a, -, -, hall⟩
      obtain ⟨x, hx, hy⟩ := any_eq_true.mp hamb
      obtain ⟨y, hy, hne⟩ := any_eq_true.mp hy
      exact absurd ((hall x hx).1.trans (hall y hy).1.symm) (of_decide_eq_true hne)
  · rw [if_neg hamb]
    have hpath : ∀ x ∈ attemptsOf candidates name, ∀ y ∈ attemptsOf candidates name,
      x.path = y.path := by
      intro x hx y hy
      by_contra hne
      exact hamb (any_eq_true.mpr ⟨x, hx, any_eq_true.mpr ⟨y, hy, decide_eq_true hne⟩⟩)
    constructor
    · intro h
      have hne : attemptsOf candidates name ≠ [] := by
        intro hnil
        rw [hnil] at h
        cases h
      obtain ⟨a, hnewest, ha, hmax⟩ := newestAttempt_some hne
      rw [hnewest] at h
      exact ⟨a, ha, h, fun b hb => ⟨hpath b hb a ha, hmax b hb⟩⟩
    · rintro ⟨a, ha, hfinished, hall⟩
      obtain ⟨n, hnewest, hn, hmax⟩ := newestAttempt_some (ne_nil_of_mem ha)
      have heq : n = a := hrows n (hsub n hn) a (hsub a ha) (le_antisymm (hall n hn).2 (hmax a ha))
      rw [hnewest, heq]
      exact hfinished

/-! ## The chunks a claim runs after -/

/-- The row is an attempt at the chunk, in the issue, worktree and stage of the claim. -/
def Attempts (new : NewDispatch) (name : Text) (r : AgentDispatch) : Prop :=
  r.stage = new.stage ∧ name ≠ [] ∧ ∃ path, siblingPath new r = some path ∧
    fileStem path = some name

/-- The newest attempt at the chunk is done or merged, and every attempt has its path. -/
def Finished (new : NewDispatch) (rows : List AgentDispatch) (name : Text) : Prop :=
  ∃ r ∈ rows, Attempts new name r ∧ isFinished r.status = true ∧
    ∀ r' ∈ rows, Attempts new name r' → r'.chunkPath = r.chunkPath ∧ r'.id ≤ r.id

theorem siblingPath_eq {new : NewDispatch} {r : AgentDispatch} {path : Text}
    (h : siblingPath new r = some path) : r.chunkPath = some path := by
  unfold siblingPath at h
  split_ifs at h
  exact Option.eq_some_of_filter_eq_some h

/-- The attempts that the gate finds are the attempts among the rows. -/
theorem mem_attemptsOf {new : NewDispatch} {rows : List AgentDispatch} {name : Text}
    {c : AfterCandidate} :
    c ∈ attemptsOf (rows.filterMap (candidate new)) name ↔
      ∃ r ∈ rows, Attempts new name r ∧ c.row = r.id ∧ c.status = r.status ∧
      some c.path = r.chunkPath := by
  unfold attemptsOf
  rw [mem_filter, mem_filterMap, Bool.and_eq_true, decide_eq_true_eq, decide_eq_true_eq]
  constructor
  · rintro ⟨⟨r, hr, hcand⟩, hstem, hname⟩
    unfold candidate at hcand
    split_ifs at hcand with hstage
    obtain ⟨path, hpath, rfl⟩ := Option.map_eq_some_iff.mp hcand
    exact ⟨r, hr, ⟨hstage, hname, path, hpath, hstem⟩, rfl, rfl, (siblingPath_eq hpath).symm⟩
  · rintro ⟨r, hr, ⟨hstage, hname, path, hpath, hstem⟩, hrow, hstatus, hcpath⟩
    rw [siblingPath_eq hpath, Option.some_inj] at hcpath
    refine ⟨⟨r, hr, ?_⟩, hcpath ▸ hstem, hname⟩
    unfold candidate
    rw [if_pos hstage, hpath, Option.map_some, ← hrow, ← hstatus, ← hcpath]

theorem candidate_eq {new : NewDispatch} {r : AgentDispatch} {c : AfterCandidate}
    (h : candidate new r = some c) : c.row = r.id := by
  unfold candidate at h
  split_ifs at h
  obtain ⟨path, -, rfl⟩ := Option.map_eq_some_iff.mp h
  rfl

theorem chunkDone_rows {new : NewDispatch} {rows : List AgentDispatch}
    (hids : (rows.map (·.id)).Nodup) (name : Text) :
    chunkDone (rows.filterMap (candidate new)) name = true ↔ Finished new rows name := by
  have hrows : ∀ a ∈ rows.filterMap (candidate new), ∀ b ∈ rows.filterMap (candidate new),
    a.row = b.row → a = b := by
    intro a ha b hb heq
    obtain ⟨r, hr, hra⟩ := mem_filterMap.mp ha
    obtain ⟨r', hr', hrb⟩ := mem_filterMap.mp hb
    rw [candidate_eq hra, candidate_eq hrb] at heq
    rw [Rows.eq_of_key hids hr hr' heq, hrb] at hra
    exact (Option.some_inj.mp hra).symm
  rw [chunkDone_iff hrows]
  constructor
  · rintro ⟨a, ha, hfinished, hall⟩
    obtain ⟨r, hr, hattempt, hrow, hstatus, hpath⟩ := mem_attemptsOf.mp ha
    refine ⟨r, hr, hattempt, hstatus ▸ hfinished, fun r' hr' hattempt' => ?_⟩
    obtain ⟨path', hpath', hstem'⟩ := hattempt'.2.2
    have hb := hall ⟨r'.id, path', r'.status⟩
      (mem_attemptsOf.mpr ⟨r', hr', hattempt', rfl, rfl, (siblingPath_eq hpath').symm⟩)
    exact ⟨by rw [siblingPath_eq hpath', ← hpath, ← hb.1], hrow ▸ hb.2⟩
  · rintro ⟨r, hr, hattempt, hfinished, hall⟩
    obtain ⟨path, hpath, hstem⟩ := hattempt.2.2
    refine ⟨⟨r.id, path, r.status⟩, mem_attemptsOf.mpr ⟨r, hr, hattempt, rfl, rfl,
      (siblingPath_eq hpath).symm⟩, hfinished, fun b hb => ?_⟩
    obtain ⟨r', hr', hattempt', hrow', -, hpath'⟩ := mem_attemptsOf.mp hb
    obtain ⟨heq, hle⟩ := hall r' hr' hattempt'
    refine ⟨Option.some_inj.mp ?_, hrow' ▸ hle⟩
    rw [hpath', heq, siblingPath_eq hpath]

/-- Whether a chunk is finished does not depend on the order of the rows. -/
theorem Finished.perm {new : NewDispatch} {rows rows' : List AgentDispatch} (h : rows.Perm rows')
    (name : Text) : Finished new rows name ↔ Finished new rows' name := by
  unfold Finished
  simp only [h.mem_iff]

/-! ## Outcomes -/

/-- The outcome of an admission, without the text of a refusal. -/
inductive AdmissionOutcome
  | grant
  | duplicate (id : Int) (exited : Bool)
  | atCapacity (occupied limit stale : Nat)
  | scopeRefusal
  | failed (e : DispatchError)
  deriving DecidableEq

def ClaimDecision.outcome : ClaimDecision → AdmissionOutcome
  | .grant => .grant
  | .duplicateOf id exited => .duplicate id exited
  | .atCapacity occupied limit stale => .atCapacity occupied limit stale

def outcome : Except DispatchError (Option DispatchAdmissionDecision) → AdmissionOutcome
  | .error e => .failed e
  | .ok none => .grant
  | .ok (some (.claim decision)) => decision.outcome
  | .ok (some (.scopeRefused _)) => .scopeRefusal

/-- The outcome behind a gate. -/
def gateOutcome (decision : ClaimDecision) : Except GateStop Unit → AdmissionOutcome
  | .error (.failed e) => .failed e
  | .error (.refused _) => .scopeRefusal
  | .ok _ => decision.outcome

theorem ClaimDecision.outcome_ne (decision : ClaimDecision) : decision.outcome ≠ .scopeRefusal := by
  cases decision <;> exact nofun

theorem outcome_admission (new : NewDispatch) (limit : Nat) (dup : Bool)
    (prepared : Option PreparedChunkAdmission) (overridden : Bool) (rows : List AgentDispatch) :
    outcome (admission new limit dup prepared overridden rows)
      = gateOutcome (decideAllowingDuplicate rows new.request limit dup)
      (chunkGate new prepared overridden rows) := by
  unfold admission
  cases chunkGate new prepared overridden rows with
  | error stop => cases stop <;> rfl
  | ok u =>
    cases hd : decideAllowingDuplicate rows new.request limit dup <;> rfl

/-- A row that the admission reads. -/
def readFor (new : NewDispatch) (r : AgentDispatch) : Bool :=
  r.status.isActive || (r.issueId = new.issueId && r.worktreePath = new.worktreePath)

theorem readFor_active {new : NewDispatch} {r : AgentDispatch} (h : r.status.isActive = true) :
    readFor new r = true := by
  unfold readFor
  rw [h, Bool.true_or]

/-- The policy counts active rows only. -/
theorem decide_filter {keep : AgentDispatch → Bool}
    (hkeep : ∀ r, r.status.isActive = true → keep r = true)
    (rows : List AgentDispatch) (req : ClaimRequest) (limit : Nat) (dup : Bool) :
    decideAllowingDuplicate (rows.filter keep) req limit dup =
      decideAllowingDuplicate rows req limit dup := by
  have hand : ∀ (p : AgentDispatch → Bool) (r : AgentDispatch),
    (occupies r && p r && keep r) = (occupies r && p r) := by
    intro p r
    cases hactive : occupies r with
    | false => rfl
    | true => rw [hkeep r hactive, Bool.and_true]
  have hfind : (rows.filter keep).find? (fun r => occupies r && sameWork r req)
      = rows.find? fun r => occupies r && sameWork r req := by
    rw [List.find?_filter]
    congr 1
    funext r
    rw [Bool.decide_and, Bool.decide_coe, Bool.decide_coe, Bool.and_comm,
      hand (fun r => sameWork r req)]
  have hfilter : (rows.filter keep).filter (fun r => occupies r && inStage req.stage r)
      = rows.filter fun r => occupies r && inStage req.stage r := by
    rw [filter_filter]
    congr 1
    funext r
    rw [hand (inStage req.stage)]
  unfold decideAllowingDuplicate
  rw [hfind, hfilter]

theorem scopeGate_stop {new : NewDispatch} {rows : List AgentDispatch} {stop : GateStop}
    (h : activeSiblings new rows = .error stop) (p : PreparedChunkAdmission) :
    scopeGate new p rows = .error stop := by
  unfold activeSiblings at h
  unfold scopeGate
  cases hs : collectSiblings new rows with
  | error e =>
    rw [hs] at h
    cases h
    rfl
  | ok s =>
    rw [hs] at h
    cases h

/-- Once the siblings are read, the gate accepts the claim or refuses it with reasons. -/
theorem scopeGate_read {new : NewDispatch} {rows : List AgentDispatch} {active : List ActiveScope}
    (h : activeSiblings new rows = .ok active) (p : PreparedChunkAdmission) :
    scopeGate new p rows = .ok () ∨ ∃ reason, scopeGate new p rows = .error (.refused reason) := by
  unfold activeSiblings at h
  unfold scopeGate
  cases hs : collectSiblings new rows with
  | error e =>
    rw [hs] at h
    cases h
  | ok s =>
    simp only [bind, Except.bind]
    split_ifs
    · exact .inr ⟨_, rfl⟩
    · exact .inl rfl

/-- The claim comes as far as the chunks it runs after: its scope is compared, and collides with no
active sibling. -/
def ComesToAfter (db : Db) (new : NewDispatch) (prepared : Option PreparedChunkAdmission)
    (overridden : Bool) (p : PreparedChunkAdmission) : Prop :=
  prepared = some p ∧ new.chunkPath = some p.path ∧ overridden = false ∧
    ∃ active, activeSiblings new ((rosterRows db).filter fun r => r.status.isActive) = .ok active ∧
      conflicts p.scope active 0 0 = .ok []

/-- The chunks that a claim runs after are finished by the rows it reads exactly when they are by
all rows. -/
def SeesAfter (db : Db) (new : NewDispatch) (after : List Text) : Prop :=
  (∀ name ∈ after, Finished new (db.rows.filter (readFor new)) name) ↔
    ∀ name ∈ after, Finished new db.rows name

/-- The gates on the rows that are read and on all rows. -/
theorem gate_narrowed (db : Db) (hids : (db.rows.map (·.id)).Nodup) (new : NewDispatch)
    (p : PreparedChunkAdmission) (decision : ClaimDecision) :
    gateOutcome decision (scopeGate new p ((rosterRows db).filter (readFor new)))
        = gateOutcome decision (scopeGate new p (rosterRows db)) ↔
      ∀ active, activeSiblings new (rosterRows db) = .ok active →
      conflicts p.scope active 0 0 = .ok [] → SeesAfter db new p.scope.after := by
  have hperm : (rosterRows db).Perm db.rows := (reverse_perm _).trans (Rows.sortOn_perm _ _)
  have hread : activeSiblings new ((rosterRows db).filter (readFor new)) =
    activeSiblings new (rosterRows db) := activeSiblings_filter fun _ => readFor_active
  cases hactive : activeSiblings new (rosterRows db) with
  | error stop =>
    rw [scopeGate_stop (hread.trans hactive), scopeGate_stop hactive]
    exact iff_of_true rfl nofun
  | ok active =>
    have hids' : ((rosterRows db).map (·.id)).Nodup := (hperm.map _).nodup_iff.mpr hids
    have hnarrow : scopeGate new p ((rosterRows db).filter (readFor new)) = .ok () ↔
        conflicts p.scope active 0 0 = .ok [] ∧
          ∀ name ∈ p.scope.after, Finished new (db.rows.filter (readFor new)) name := by
      rw [scopeGate_ok, hread, hactive]
      have hsub : (((rosterRows db).filter (readFor new)).map (·.id)).Nodup :=
        hids'.sublist (filter_sublist.map _)
      simp only [chunkDone_rows hsub, Finished.perm (hperm.filter _), Except.ok.injEq,
        exists_eq_left']
    have hfull : scopeGate new p (rosterRows db) = .ok () ↔
        conflicts p.scope active 0 0 = .ok [] ∧ ∀ name ∈ p.scope.after,
          Finished new db.rows name := by
      rw [scopeGate_ok, hactive]
      simp only [chunkDone_rows hids', Finished.perm hperm, Except.ok.injEq, exists_eq_left']
    have hsame : gateOutcome decision (scopeGate new p ((rosterRows db).filter (readFor new)))
        = gateOutcome decision (scopeGate new p (rosterRows db)) ↔
        (scopeGate new p ((rosterRows db).filter (readFor new)) = .ok () ↔
          scopeGate new p (rosterRows db) = .ok ()) := by
      rcases scopeGate_read (hread.trans hactive) p with hn | ⟨reason, hn⟩
      · rcases scopeGate_read hactive p with hf | ⟨reason', hf⟩
        · rw [hn, hf]
          exact iff_of_true rfl Iff.rfl
        · rw [hn, hf]
          exact iff_of_false decision.outcome_ne fun h => nomatch h.mp rfl
      · rcases scopeGate_read hactive p with hf | ⟨reason', hf⟩
        · rw [hn, hf]
          exact iff_of_false decision.outcome_ne.symm fun h => nomatch h.mpr rfl
        · rw [hn, hf]
          exact iff_of_true rfl (iff_of_false nofun nofun)
    rw [hsame, hnarrow, hfull]
    simp only [Except.ok.injEq, forall_eq']
    exact and_congr_right_iff

/-- **Narrowing the read changes no decision** exactly when a claim that comes to the chunks it runs
after finds them finished on the rows it reads just as on all rows. -/
theorem narrowed_read_exact (db : Db) (hids : (db.rows.map (·.id)).Nodup) (new : NewDispatch)
    (limit : Nat) (dup : Bool) (prepared : Option PreparedChunkAdmission) (overridden : Bool) :
    outcome (admission new limit dup prepared overridden
      (admissionRows db new.issueId new.worktreePath))
        = outcome (admission new limit dup prepared overridden (rosterRows db)) ↔
      ∀ p, ComesToAfter db new prepared overridden p → SeesAfter db new p.scope.after := by
  have hactive : activeSiblings new ((rosterRows db).filter fun r => r.status.isActive)
      = activeSiblings new (rosterRows db) := activeSiblings_filter fun _ h => h
  have hrows : admissionRows db new.issueId new.worktreePath =
    (rosterRows db).filter (readFor new) := rfl
  rw [outcome_admission, outcome_admission, hrows, decide_filter fun _ => readFor_active]
  generalize decideAllowingDuplicate (rosterRows db) new.request limit dup = decision
  unfold ComesToAfter
  rw [hactive]
  unfold chunkGate
  cases hchunk : new.chunkPath with
  | none =>
    refine iff_of_true rfl ?_
    rintro p ⟨-, hpath, -⟩
    cases hpath
  | some path =>
    cases prepared with
    | none =>
      refine iff_of_true rfl ?_
      rintro p ⟨hp, -⟩
      cases hp
    | some q =>
      dsimp only
      by_cases hpath : q.path = path
      · rw [if_neg (not_not.mpr hpath), if_neg (not_not.mpr hpath)]
        cases overridden with
        | true =>
          refine iff_of_true rfl ?_
          rintro p ⟨-, -, hno, -⟩
          cases hno
        | false =>
          rw [if_neg Bool.false_ne_true, if_neg Bool.false_ne_true, gate_narrowed db hids]
          constructor
          · rintro h p ⟨hp, -, -, active, hread, hclear⟩
            cases hp
            exact h active hread hclear
          · intro h active hread hclear
            exact h q ⟨rfl, by rw [hpath], rfl, active, hread, hclear⟩
      · rw [if_pos hpath, if_pos hpath]
        refine iff_of_true rfl ?_
        rintro p ⟨hp, hp', -⟩
        cases hp
        cases hp'
        exact absurd rfl hpath

/-! A chunk `a` that was done under one spelling of the issue, and a claim under another spelling
that runs after it. -/

def spelledDb : Db where
  rows := [{ NewDispatch.row ⟨"THE-1".toList, ['w'], ['a'], some ['s'], none, none, none,
    some "a.md".toList⟩ 1 0 with
    status := .done }]
  notes := []
  lastId := 1
  leases := ⟨∅, some 0⟩

def spelledClaim : NewDispatch :=
  ⟨"linear:THE-1".toList, ['w'], ['a'], some ['s'], none, none, none, some "b.md".toList⟩

def spelledChunk : PreparedChunkAdmission := ⟨"b.md".toList, ⟨[['f']], [], [['a']]⟩⟩

theorem narrowed_read_exact_sample :
    ¬ ∀ p, ComesToAfter spelledDb spelledClaim (some spelledChunk) false p →
      SeesAfter spelledDb spelledClaim p.scope.after := by
  rw [← narrowed_read_exact spelledDb (by decide) spelledClaim 5 false (some spelledChunk) false]
  decide +kernel

/-- The claim is refused on the rows it reads, and granted on the complete roster. -/
theorem other_spelling_refused :
    outcome (admission spelledClaim 5 false (some spelledChunk) false
        (admissionRows spelledDb spelledClaim.issueId spelledClaim.worktreePath)) = .scopeRefusal ∧
      outcome (admission spelledClaim 5 false (some spelledChunk) false (rosterRows spelledDb)) =
        .grant := by
  decide +kernel

end Thegn.Dispatch
