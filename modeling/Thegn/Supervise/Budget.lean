import Thegn.Supervise.Commit

set_option autoImplicit false

/-! # The retry budget, and what moves a lane

The store keeps one row for each task and commit of a lane and counts its runs
(`thegn-core/src/db_pipeline_supervise.rs`); the planner reads the rows back, newest first. Passes
of the supervisor and changes of everything else alternate in any order. When the stages list a task
once and commits are spelled as git spells them, the count of a row is the number of runs ever
requested, so that none is requested beyond the budget (`supervisor_bounded`).
-/

namespace Thegn.Supervise

open Text List

/-! ## The store -/

/-- A row of `pipeline_validations` for one lane. -/
structure ValidationRow where
  id : Nat
  task : Text
  commitSha : Text
  cls : Text
  attempts : Nat
  ranAtMs : Int
  deriving DecidableEq

def ValidationRow.keyed (task commitSha : Text) (r : ValidationRow) : Bool :=
  r.task = task && r.commitSha = commitSha

/-- `u32::saturating_add(1)`. -/
def nextAttempts (n : Nat) : Nat := min (2 ^ 32 - 1) (n + 1)

def recordValidation (rows : List ValidationRow) (task commitSha : Text) (cls : ValidationClass)
    (nowMs : Int) : List ValidationRow :=
  match rows.find? (ValidationRow.keyed task commitSha) with
  | none =>
    rows ++ [{ id := rows.length + 1, task, commitSha, cls := cls.asStr,
               attempts := nextAttempts 0, ranAtMs := nowMs }]
  | some existing =>
    rows.map fun r =>
      if r.keyed task commitSha then
        { r with cls := cls.asStr, attempts := nextAttempts existing.attempts, ranAtMs := nowMs }
      else r

/-- `ORDER BY ran_at_ms DESC, id DESC`. -/
def newestFirst (a b : ValidationRow) : Bool :=
  decide (b.ranAtMs < a.ranAtMs) || (a.ranAtMs == b.ranAtMs && decide (b.id ≤ a.id))

def ValidationRow.record (r : ValidationRow) : ValidationRecord :=
  { task := r.task, cls := .parse r.cls, commitSha := r.commitSha, attempts := r.attempts }

def validationsForDispatch (rows : List ValidationRow) : List ValidationRecord :=
  (rows.mergeSort newestFirst).map ValidationRow.record

/-! ## Passes -/

/-- A lane with its stored rows and, not in the source, every run that was requested. -/
structure World where
  facts : LaneFacts
  rows : List ValidationRow
  requested : List (Text × Text)

def World.new (facts : LaneFacts) : World := { facts, rows := [], requested := [] }

/-- The facts as the planner gets them. -/
def World.lane (w : World) : LaneFacts :=
  { w.facts with validations := validationsForDispatch w.rows }

inductive Event
  /-- Anything but the stored validations changes: the head, an approval, the status. -/
  | change (facts : LaneFacts)
  /-- The supervisor plans, and runs what is owed; each run has a result and a time. -/
  | pass (nowMs : Int) (results : Nat → ValidationClass × Int)

/-- The results of the listed tasks are recorded at the commit. -/
def recordAll (commitSha : Text) (results : Nat → ValidationClass × Int) :
    Nat → List ValidationRow → List Text → List ValidationRow
  | _, rows, [] => rows
  | i, rows, task :: tasks =>
    recordAll commitSha results (i + 1)
      (recordValidation rows task commitSha (results i).1 (results i).2) tasks

def World.step (pipeline : Pipeline) (sup : Supervisor) (w : World) : Event → World
  | .change facts => { w with facts := facts }
  | .pass nowMs results =>
    match planOne w.lane pipeline sup nowMs with
    | .validate _ tasks commitSha =>
      { w with
        rows := recordAll commitSha results 0 w.rows tasks
        requested := w.requested ++ tasks.map fun task => (task, commitSha) }
    | _ => w

/-! ## Counting runs -/

def ValidationRow.key (r : ValidationRow) : Text × Text := (r.task, r.commitSha)

/-- The runs that the store counts for a task and a commit. -/
def attemptsOf (rows : List ValidationRow) (task commitSha : Text) : Nat :=
  match rows.find? (ValidationRow.keyed task commitSha) with
  | some r => r.attempts
  | none => 0

theorem keyed_iff {task commitSha : Text} {r : ValidationRow} :
    r.keyed task commitSha = true ↔ r.key = (task, commitSha) := by
  rw [ValidationRow.keyed, Bool.and_eq_true, decide_eq_true_iff, decide_eq_true_iff,
    ValidationRow.key, Prod.mk.injEq]

theorem find_keyed_map {f : ValidationRow → ValidationRow} (hf : ∀ r, (f r).key = r.key)
    (task commitSha : Text) (rows : List ValidationRow) :
    (rows.map f).find? (ValidationRow.keyed task commitSha) =
      (rows.find? (ValidationRow.keyed task commitSha)).map f := by
  rw [List.find?_map]
  congr 2
  funext r
  have hiff : (f r).keyed task commitSha = true ↔ r.keyed task commitSha = true := by
    rw [keyed_iff, keyed_iff, hf]
  exact Bool.eq_iff_iff.mpr hiff

/-- A recorded run is counted, and no other. -/
theorem attemptsOf_recordValidation {rows : List ValidationRow} {task commitSha : Text}
    (cls : ValidationClass) (now : Int) (hle : attemptsOf rows task commitSha < 2 ^ 32 - 1)
    (task' commitSha' : Text) :
    attemptsOf (recordValidation rows task commitSha cls now) task' commitSha' =
      attemptsOf rows task' commitSha' + if (task', commitSha') = (task, commitSha) then 1
        else 0 := by
  unfold recordValidation
  cases hfind : rows.find? (ValidationRow.keyed task commitSha) with
  | none =>
    dsimp only
    unfold attemptsOf
    rw [List.find?_append]
    by_cases hkey : (task', commitSha') = (task, commitSha)
    · cases hkey
      rw [hfind, if_pos rfl, Option.none_or]
      simp [ValidationRow.keyed, nextAttempts]
    · rw [if_neg hkey]
      have hnot : ValidationRow.keyed task' commitSha'
          { id := rows.length + 1, task, commitSha, cls := cls.asStr,
            attempts := nextAttempts 0, ranAtMs := now } = false := by
        rw [← Bool.not_eq_true, keyed_iff]
        exact fun h => hkey h.symm
      rw [List.find?_cons_of_neg (by rw [hnot]; exact Bool.false_ne_true), List.find?_nil,
        Option.or_none, Nat.add_zero]
  | some existing =>
    dsimp only
    unfold attemptsOf
    rw [find_keyed_map]
    · by_cases hkey : (task', commitSha') = (task, commitSha)
      · cases hkey
        have hkeyed := List.find?_some hfind
        have hle' : existing.attempts < 2 ^ 32 - 1 := by
          unfold attemptsOf at hle
          rw [hfind] at hle
          exact hle
        rw [hfind, if_pos rfl, Option.map_some]
        simp only [hkeyed, if_true, nextAttempts]
        omega
      · rw [if_neg hkey, Nat.add_zero]
        cases hfind' : rows.find? (ValidationRow.keyed task' commitSha') with
        | none => rfl
        | some r =>
          have hkeyed := keyed_iff.mp (List.find?_some hfind')
          have hnot : ¬ r.keyed task commitSha = true := by
            rw [keyed_iff, hkeyed]
            exact hkey
          rw [Option.map_some]
          dsimp only
          rw [if_neg hnot]
    · intro r
      split_ifs
      · rfl
      · rfl

/-- The runs of one pass are counted, each task once. -/
theorem attemptsOf_recordAll {commitSha : Text} (results : Nat → ValidationClass × Int)
    {tasks : List Text} (hnodup : tasks.Nodup) (i : Nat) {rows : List ValidationRow}
    (hle : ∀ task ∈ tasks, attemptsOf rows task commitSha < maxValidationAttempts)
    (task' commitSha' : Text) :
    attemptsOf (recordAll commitSha results i rows tasks) task' commitSha' =
      attemptsOf rows task' commitSha' +
        (tasks.map fun task => (task, commitSha)).count (task', commitSha') := by
  induction tasks generalizing i rows with
  | nil => rw [recordAll, map_nil, count_nil, Nat.add_zero]
  | cons task tasks ih =>
    obtain ⟨hnew, hnodup⟩ := nodup_cons.mp hnodup
    have hbound : attemptsOf rows task commitSha < 2 ^ 32 - 1 := by
      have h := hle task (.head _)
      rw [maxValidationAttempts] at h
      omega
    have hstep := attemptsOf_recordValidation (results i).1 (results i).2 hbound
    rw [recordAll, ih hnodup, hstep, map_cons, count_cons, Nat.add_assoc]
    · congr 1
      by_cases hkey : (task', commitSha') = (task, commitSha)
      · rw [if_pos hkey, if_pos (beq_iff_eq.mpr hkey.symm), Nat.add_comm]
      · rw [if_neg hkey, if_neg (fun h => hkey (beq_iff_eq.mp h).symm), Nat.add_comm]
    · intro t ht
      have hne : (t, commitSha) ≠ (task, commitSha) := by
        intro heq
        rw [Prod.mk.injEq] at heq
        exact hnew (heq.1 ▸ ht)
      rw [hstep, if_neg hne, Nat.add_zero]
      exact hle t (.tail _ ht)

/-! ## Rows and keys -/

theorem map_key_recordValidation (rows : List ValidationRow) (task commitSha : Text)
    (cls : ValidationClass) (now : Int) :
    (recordValidation rows task commitSha cls now).map ValidationRow.key =
      rows.map ValidationRow.key ∨
    (task, commitSha) ∉ rows.map ValidationRow.key ∧
      (recordValidation rows task commitSha cls now).map ValidationRow.key =
        rows.map ValidationRow.key ++ [(task, commitSha)] := by
  unfold recordValidation
  cases hfind : rows.find? (ValidationRow.keyed task commitSha) with
  | none =>
    refine .inr ⟨?_, by rw [map_append]; rfl⟩
    intro hmem
    obtain ⟨r, hr, hkey⟩ := mem_map.mp hmem
    exact List.find?_eq_none.mp hfind r hr (keyed_iff.mpr hkey)
  | some existing =>
    refine .inl ?_
    dsimp only
    rw [map_map]
    refine map_congr_left fun r _ => ?_
    simp only [Function.comp_apply]
    split_ifs
    · rfl
    · rfl

/-- The rows have distinct keys, and commits as git spells them. -/
structure RowsOk (rows : List ValidationRow) : Prop where
  nodup : (rows.map ValidationRow.key).Nodup
  sha : ∀ r ∈ rows, IsSha r.commitSha

theorem rowsOk_recordValidation {rows : List ValidationRow} (h : RowsOk rows)
    {task commitSha : Text} (hsha : IsSha commitSha) (cls : ValidationClass) (now : Int) :
    RowsOk (recordValidation rows task commitSha cls now) := by
  have hkeys := map_key_recordValidation rows task commitSha cls now
  have hmem : ∀ key ∈ (recordValidation rows task commitSha cls now).map ValidationRow.key,
      key ∈ rows.map ValidationRow.key ∨ key = (task, commitSha) := by
    intro key hkey
    rcases hkeys with heq | ⟨-, heq⟩
    · rw [heq] at hkey
      exact .inl hkey
    · rw [heq, mem_append, mem_singleton] at hkey
      exact hkey
  refine ⟨?_, ?_⟩
  · rcases hkeys with heq | ⟨hnew, heq⟩
    · rw [heq]
      exact h.nodup
    · rw [heq]
      exact h.nodup.append (nodup_singleton _) (disjoint_singleton.mpr hnew)
  · intro r hr
    rcases hmem r.key (mem_map_of_mem hr) with hold | hnew
    · obtain ⟨r', hr', hsame⟩ := mem_map.mp hold
      rw [ValidationRow.key, ValidationRow.key, Prod.mk.injEq] at hsame
      rw [← hsame.2]
      exact h.sha r' hr'
    · rw [ValidationRow.key, Prod.mk.injEq] at hnew
      rw [hnew.2]
      exact hsha

theorem rowsOk_recordAll {commitSha : Text} (hsha : IsSha commitSha)
    {results : Nat → ValidationClass × Int} {tasks : List Text} {i : Nat}
    {rows : List ValidationRow}
    (h : RowsOk rows) : RowsOk (recordAll commitSha results i rows tasks) := by
  induction tasks generalizing i rows with
  | nil => exact h
  | cons task tasks ih => exact ih (rowsOk_recordValidation h hsha _ _)

theorem eq_of_key {rows : List ValidationRow} (h : RowsOk rows) {r r' : ValidationRow}
    (hr : r ∈ rows) (hr' : r' ∈ rows) (hkey : r.key = r'.key) : r = r' :=
  inj_on_of_nodup_map h.nodup hr hr' hkey

/-- What the planner reads for a task is the row of the task and the head. -/
theorem current_lane {w : World} (hrows : RowsOk w.rows) (hsha : IsSha w.facts.headSha)
    (hlen : minShaPrefix ≤ byteLen w.facts.headSha) {task : Text} {r : ValidationRow}
    (hr : r ∈ w.rows)
    (hkey : r.key = (task, w.facts.headSha)) : w.lane.current task = some r.record := by
  have hmatch : ∀ r' ∈ w.rows, (decide (r'.record.task = task) &&
      commitMatches r'.record.commitSha w.lane.headSha) = true → r' = r := by
    intro r' hr' h
    rw [Bool.and_eq_true, decide_eq_true_iff] at h
    have hcommit := (commitMatches_iff (hrows.sha r' hr') hsha hlen).mp h.2
    refine eq_of_key hrows hr' hr ?_
    rw [hkey, ValidationRow.key, Prod.mk.injEq]
    exact ⟨h.1, hcommit⟩
  unfold LaneFacts.current
  have hvalidations : w.lane.validations = (w.rows.mergeSort newestFirst).map
    ValidationRow.record := rfl
  rw [hvalidations, List.find?_map]
  cases hfind : (w.rows.mergeSort newestFirst).find?
      ((fun v => decide (v.task = task) && commitMatches v.commitSha w.lane.headSha) ∘
        ValidationRow.record) with
  | none =>
    have hnone := List.find?_eq_none.mp hfind r (mem_mergeSort.mpr hr)
    refine absurd ?_ hnone
    rw [ValidationRow.key, Prod.mk.injEq] at hkey
    rw [Function.comp_apply, Bool.and_eq_true, decide_eq_true_iff]
    exact ⟨hkey.1, (commitMatches_iff (hrows.sha r hr) hsha hlen).mpr hkey.2⟩
  | some r' =>
    have hr' := mem_mergeSort.mp (mem_of_find?_eq_some hfind)
    have hfound := List.find?_some hfind
    rw [Function.comp_apply] at hfound
    rw [Option.map_some, hmatch r' hr' hfound]

/-! ## Every run -/

/-- The stages list each task once. -/
def Pipeline.TasksOnce (p : Pipeline) : Prop := ∀ s ∈ p.stages, s.validateTasks.Nodup

instance (p : Pipeline) : Decidable p.TasksOnce :=
  inferInstanceAs (Decidable (∀ s ∈ p.stages, s.validateTasks.Nodup))

/-- A head that changes is spelled as git spells it. -/
def Event.HeadSpelled : Event → Prop
  | .change facts => IsSha facts.headSha
  | .pass _ _ => True

/-- The store counts the runs that were requested, within the budget. -/
structure World.Ok (w : World) : Prop where
  head : IsSha w.facts.headSha
  rows : RowsOk w.rows
  counted : ∀ task commitSha, w.requested.count (task, commitSha) = attemptsOf w.rows task commitSha
  bounded : ∀ task commitSha, attemptsOf w.rows task commitSha ≤ maxValidationAttempts

theorem World.Ok.new {facts : LaneFacts} (h : IsSha facts.headSha) : (World.new facts).Ok where
  head := h
  rows := ⟨nodup_nil, fun _ h => absurd h not_mem_nil⟩
  counted := fun _ _ => rfl
  bounded := fun _ _ => Nat.zero_le _

/-- What is owed has been run less often than the budget allows. -/
theorem attemptsOf_of_owed {w : World} (h : w.Ok) (hlen : minShaPrefix ≤ byteLen w.facts.headSha)
    {task : Text} (howed : Owed w.lane task) :
    attemptsOf w.rows task w.facts.headSha < maxValidationAttempts := by
  unfold attemptsOf
  cases hfind : w.rows.find? (ValidationRow.keyed task w.facts.headSha) with
  | none => decide
  | some r =>
    have hcurrent := current_lane h.rows h.head hlen (mem_of_find?_eq_some hfind)
      (keyed_iff.mp (List.find?_some hfind))
    rcases howed with hnone | ⟨v, hv, hlt⟩
    · rw [hcurrent] at hnone
      cases hnone
    · rw [hcurrent] at hv
      cases hv
      exact hlt

theorem Pipeline.stage_mem {p : Pipeline} {name : Text} {s : PipelineStage}
    (h : p.stage name = some s) : s ∈ p.stages :=
  mem_of_find?_eq_some h

/-- A pass and a change keep the count. -/
theorem World.Ok.step {pipeline : Pipeline} {sup : Supervisor} (honce : pipeline.TasksOnce)
    {w : World} (h : w.Ok) {e : Event} (he : e.HeadSpelled) : (w.step pipeline sup e).Ok := by
  cases e with
  | change facts => exact ⟨he, h.rows, h.counted, h.bounded⟩
  | pass now results =>
    unfold World.step
    dsimp only
    cases hplan : planOne w.lane pipeline sup now with
    | validate row tasks commitSha =>
      obtain ⟨rfl, hlen, stage, hstage, hstate⟩ := planOne_validate hplan
      have hhead : w.lane.headSha = w.facts.headSha := rfl
      rw [hhead, trim_of_sha h.head] at hlen
      rw [hhead]
      -- each task is listed once, and owed
      obtain ⟨more, hmore, hsub, howed⟩ := validationStateFrom_owed hstate
      rw [nil_append] at hmore
      subst hmore
      have hnodup := hsub.nodup (honce stage (Pipeline.stage_mem hstage))
      have hroom : ∀ task ∈ tasks, attemptsOf w.rows task w.facts.headSha < maxValidationAttempts :=
        fun task htask => attemptsOf_of_owed h hlen (howed task htask)
      have hcount := attemptsOf_recordAll results hnodup 0 hroom
      refine ⟨h.head, rowsOk_recordAll h.head h.rows, ?_, ?_⟩
      · intro task commitSha
        rw [count_append, h.counted, hcount]
      · intro task commitSha
        rw [hcount]
        by_cases hmem : (task, commitSha) ∈ tasks.map fun task => (task, w.facts.headSha)
        · obtain ⟨task', htask', heq⟩ := mem_map.mp hmem
          cases heq
          have honly : (tasks.map fun task => (task, w.facts.headSha)).Nodup :=
            hnodup.map fun a b hab => (Prod.mk.injEq .. ▸ hab).1
          rw [count_eq_one_of_mem honly hmem]
          exact hroom task htask'
        · rw [count_eq_zero_of_not_mem hmem]
          exact h.bounded task commitSha
    | advance row next reqs => exact h
    | enqueue row commitSha reqs => exact h
    | escalate row why => exact h
    | hold row why => exact h

theorem World.Ok.run {pipeline : Pipeline} {sup : Supervisor} (honce : pipeline.TasksOnce)
    {events : List Event} {w : World} (h : w.Ok) (hevents : ∀ e ∈ events, e.HeadSpelled) :
    (events.foldl (World.step pipeline sup) w).Ok := by
  induction events generalizing w with
  | nil => exact h
  | cons e events ih =>
    rw [foldl_cons]
    exact ih (h.step honce (hevents e (.head _)))
      fun e' he' => hevents e' (.tail _ he')

/-- The record that vouches for a requirement of a lane at its head. -/
def Evidenced (w : World) (sup : Supervisor) (now : Int) (stage : PipelineStage) :
    Requirement → Prop
  | .parentArtifact => w.facts.artifactTracked = true
  | .parentReport => w.facts.reportPresent = true
  | .validationGreen =>
    ∀ task ∈ stage.validateTasks, ∃ r ∈ w.rows, r.key = (task, w.facts.headSha) ∧
      ValidationClass.parse r.cls = .green ∧ ∀ r' ∈ w.rows, r'.key = r.key → r' = r
  | .approval =>
    ∃ a, w.facts.approval = some a ∧ a.revokedAtMs = none ∧
      (∀ deadline, deadlineMs a sup.approvalTtlSecs = some deadline → now ≤ deadline) ∧
      PrefixMatch (trim a.commitSha) w.facts.headSha

/-- A green record that the planner reads is the only row of the task and the head. -/
theorem green_row {w : World} (h : w.Ok) (hlen : minShaPrefix ≤ byteLen w.facts.headSha)
    {task : Text}
    {v : ValidationRecord} (hv : w.lane.current task = some v) (hgreen : v.cls.isGreen = true) :
    ∃ r ∈ w.rows, r.key = (task, w.facts.headSha) ∧ ValidationClass.parse r.cls = .green ∧
      ∀ r' ∈ w.rows, r'.key = r.key → r' = r := by
  have hmem := mem_of_find?_eq_some hv
  obtain ⟨r, hr, rfl⟩ := mem_map.mp hmem
  have hrow := mem_mergeSort.mp hr
  have hmatch := List.find?_some hv
  rw [Bool.and_eq_true, decide_eq_true_iff] at hmatch
  have hcommit := (commitMatches_iff (h.rows.sha r hrow) h.head hlen).mp hmatch.2
  refine ⟨r, hrow, ?_, ?_, fun r' hr' hkey => eq_of_key h.rows hr' hrow hkey⟩
  · rw [ValidationRow.key, Prod.mk.injEq]
    exact ⟨hmatch.1, hcommit⟩
  · unfold ValidationRow.record at hgreen
    cases hcls : ValidationClass.parse r.cls with
    | green => rfl
    | compileError | testFailure | lintFinding | inconclusive | environmentError =>
      rw [hcls] at hgreen
      cases hgreen

/-- What the planner holds satisfied is vouched for. -/
theorem evidenced_of_satisfied {w : World} (h : w.Ok)
    (hlen : minShaPrefix ≤ byteLen w.facts.headSha)
    {sup : Supervisor} {now : Int} {stage : PipelineStage} {req : Requirement}
    (hsat : satisfied w.lane stage.validateTasks sup now req = true) :
    Evidenced w sup now stage req := by
  cases req with
  | parentArtifact => exact hsat
  | parentReport => exact hsat
  | validationGreen =>
    rw [satisfied, beq_iff_eq] at hsat
    intro task htask
    obtain ⟨v, hv, hgreen⟩ := (validationStateFrom_allGreen hsat).2 task htask
    exact green_row h hlen hv hgreen
  | approval =>
    obtain ⟨a, ha, hrevoked, happroved, -, hsame, hdeadline⟩ := isLive_stateFor hsat
    have hhead : w.lane.headSha = w.facts.headSha := rfl
    rw [hhead, trim_of_sha h.head] at hsame
    exact ⟨a, ha, hrevoked, hdeadline, prefixMatch_of_sameCommit h.head happroved hlen hsame⟩

/-- No run is requested beyond the budget of its task and commit, and a lane is moved on only by
evidence for its head. -/
theorem supervisor_bounded (pipeline : Pipeline) (sup : Supervisor) (honce : pipeline.TasksOnce)
    (facts : LaneFacts) (hsha : IsSha facts.headSha) (events : List Event)
    (hevents : ∀ e ∈ events, e.HeadSpelled) (w : World)
    (hw : w = events.foldl (World.step pipeline sup) (World.new facts)) :
    (∀ task commitSha, w.requested.count (task, commitSha) ≤ maxValidationAttempts) ∧
    (∀ now row nextStage reqs, planOne w.lane pipeline sup now = .advance row nextStage reqs →
      ∃ stage target, pipeline.stage w.facts.stage = some stage ∧ stage.nextName = some nextStage ∧
        pipeline.stage nextStage = some target ∧
        ∀ req ∈ target.parsedRequires, Evidenced w sup now stage req) ∧
    (∀ now row commitSha reqs, planOne w.lane pipeline sup now = .enqueue row commitSha reqs →
      commitSha = w.facts.headSha ∧
      ∃ stage, pipeline.stage w.facts.stage = some stage ∧ stage.nextName = none ∧
        ∀ req ∈ sup.parsedLandRequires, Evidenced w sup now stage req) := by
  have hok : w.Ok := hw ▸ World.Ok.run honce (World.Ok.new hsha) hevents
  have hresolved : minShaPrefix ≤ byteLen (trim w.lane.headSha) →
      minShaPrefix ≤ byteLen w.facts.headSha := by
    intro hlen
    rw [← trim_of_sha hok.head]
    exact hlen
  refine ⟨?_, ?_, ?_⟩
  · intro task commitSha
    rw [hok.counted]
    exact hok.bounded task commitSha
  · intro now row nextStage reqs hplan
    obtain ⟨stage, target, hlen, hstage, hnext, htarget, hcheck⟩ := planOne_advance hplan
    refine ⟨stage, target, hstage, hnext, htarget, fun req hreq => ?_⟩
    exact evidenced_of_satisfied hok (hresolved hlen) (check_ok hcheck req hreq)
  · intro now row commitSha reqs hplan
    obtain ⟨rfl, hlen, stage, hstage, hnext, hcheck⟩ := planOne_enqueue hplan
    refine ⟨rfl, stage, hstage, hnext, fun req hreq => ?_⟩
    exact evidenced_of_satisfied hok (hresolved hlen) (check_ok hcheck req hreq)

/-! ## A task that a stage lists three times -/

def sampleSupervisor : Supervisor :=
  { validateOnExit := true, advance := true, land := true, approvalTtlSecs := 0,
    landRequires := ["validation:green".toList, "approval".toList] }

def sampleChart (tasks : List Text) : Pipeline :=
  { stages := [{ name := "build".toList, next := none, validate := tasks, requires := [] }] }

def sampleLane : LaneFacts :=
  { row := 1, stage := "build".toList, status := .done, workerLive := false,
    headSha := "0a1b2c3d".toList, mergedIntoTarget := false, enqueued := false,
    artifactTracked := false, reportPresent := false, validations := [],
    approval := some
      { commitSha := "0a1b2c3".toList, grantedAtMs := 0, expiresAtMs := none, revokedAtMs := none },
    childStages := [] }

/-- The first attempt is inconclusive and the second green. -/
def sampleEvents : List Event := [.pass 0 fun _ => (.inconclusive, 1), .pass 2 fun _ => (.green, 3)]

theorem repeated_task_exceeds_budget :
    maxValidationAttempts <
      ((World.new sampleLane).step (sampleChart ["t".toList, "t".toList, "t".toList])
        sampleSupervisor
        (.pass 0 fun _ => (.green, 0))).requested.count ("t".toList, sampleLane.headSha) := by
  decide +kernel

theorem supervisor_bounded_sample :
    ∃ w, w = sampleEvents.foldl (World.step (sampleChart ["t".toList]) sampleSupervisor)
        (World.new sampleLane) ∧
      w.requested.count ("t".toList, sampleLane.headSha) = 2 ∧
      (∀ task commitSha, w.requested.count (task, commitSha) ≤ maxValidationAttempts) ∧
      planOne w.lane (sampleChart ["t".toList]) sampleSupervisor 4 =
        .enqueue 1 sampleLane.headSha [.validationGreen, .approval] ∧
      ∃ stage, ∀ req ∈ sampleSupervisor.parsedLandRequires,
        Evidenced w sampleSupervisor 4 stage req := by
  have hplan : planOne (sampleEvents.foldl (World.step (sampleChart ["t".toList]) sampleSupervisor)
      (World.new sampleLane)).lane (sampleChart ["t".toList]) sampleSupervisor 4 =
        .enqueue 1 sampleLane.headSha [.validationGreen, .approval] := by
    decide +kernel
  have hrun :=
    supervisor_bounded (sampleChart ["t".toList]) sampleSupervisor (by decide +kernel) sampleLane
    (by decide +kernel) sampleEvents (by simp [sampleEvents, Event.HeadSpelled]) _ rfl
  obtain ⟨-, stage, -, -, hall⟩ := hrun.2.2 4 1 _ _ hplan
  exact ⟨_, rfl, by decide +kernel, hrun.1, hplan, stage, hall⟩

end Thegn.Supervise
