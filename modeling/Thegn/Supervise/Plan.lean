import Thegn.Dispatch.Status
import Thegn.Supervise.Chart

set_option autoImplicit false

/-! # What the supervisor plans for a lane

`thegn-core/src/pipeline_supervise.rs`: from the recorded facts of a lane, the one thing to do about
it. The order of the tests is the contract.
-/

namespace Thegn.Supervise

open Text Dispatch List

def maxValidationAttempts : Nat := 2

structure ValidationRecord where
  task : Text
  cls : ValidationClass
  commitSha : Text
  attempts : Nat
  deriving DecidableEq

structure LaneFacts where
  row : Int
  stage : Text
  status : AgentDispatchStatus
  workerLive : Bool
  headSha : Text
  mergedIntoTarget : Bool
  enqueued : Bool
  artifactTracked : Bool
  reportPresent : Bool
  validations : List ValidationRecord
  approval : Option Approval
  childStages : List Text
  deriving DecidableEq

inductive EscalationReason
  | validationFailed (task : Text) (cls : ValidationClass)
  | validationUnresolved (task : Text) (cls : ValidationClass)
  | awaitingApproval (stage commitSha : Text)
  | handoffIncomplete (missing : Requirement)
  | validationNotPermitted (stage : Text)
  | stageMissing (name : Text)
  deriving DecidableEq

inductive SuperviseAction
  | validate (row : Int) (tasks : List Text) (commitSha : Text)
  | advance (row : Int) (nextStage : Text) (authorizedBy : List Requirement)
  | enqueue (row : Int) (commitSha : Text) (authorizedBy : List Requirement)
  | escalate (row : Int) (why : EscalationReason)
  | hold (row : Int) (why : Text)
  deriving DecidableEq

/-- Two recorded commits are the same one. -/
def commitMatches (a b : Text) : Bool :=
  if byteLen (trim a) < minShaPrefix ∨ byteLen (trim b) < minShaPrefix then false
  else eqIgnoreAsciiCase (trim a) (trim b)

inductive ValidationState
  | owed (tasks : List Text)
  | failed (task : Text) (cls : ValidationClass)
  | unresolved (task : Text) (cls : ValidationClass)
  | allGreen
  deriving DecidableEq

/-- The record of a task for the current tip. -/
def LaneFacts.current (lane : LaneFacts) (task : Text) : Option ValidationRecord :=
  lane.validations.find? fun v => v.task = task && commitMatches v.commitSha lane.headSha

/-- The fold over the declared tasks, with those found to be owed. -/
def validationStateFrom (lane : LaneFacts) (owed : List Text) : List Text → ValidationState
  | [] => if owed = [] then .allGreen else .owed owed
  | task :: rest =>
    match lane.current task with
    | none => validationStateFrom lane (owed ++ [task]) rest
    | some v =>
      if v.cls.isGreen then validationStateFrom lane owed rest
      else if v.cls.blamesCode then .failed v.task v.cls
      else if v.attempts < maxValidationAttempts then
        validationStateFrom lane (owed ++ [v.task]) rest
      else .unresolved v.task v.cls

def validationState (lane : LaneFacts) (declared : List Text) : ValidationState :=
  validationStateFrom lane [] declared

def unmet (lane : LaneFacts) (req : Requirement) (sup : Supervisor) : EscalationReason :=
  match req with
  | .approval => .awaitingApproval lane.stage lane.headSha
  | .validationGreen =>
    if sup.validateOnExit then .handoffIncomplete .validationGreen
    else .validationNotPermitted lane.stage
  | other => .handoffIncomplete other

/-- Whether one requirement is met. -/
def satisfied (lane : LaneFacts) (declared : List Text) (sup : Supervisor) (nowMs : Int) :
    Requirement → Bool
  | .parentArtifact => lane.artifactTracked
  | .parentReport => lane.reportPresent
  | .validationGreen => validationState lane declared == .allGreen
  | .approval => (stateFor lane.approval lane.headSha nowMs sup.approvalTtlSecs).isLive

def checkFrom (lane : LaneFacts) (required : List Requirement) (declared : List Text)
    (sup : Supervisor) (nowMs : Int) (met : List Requirement) :
    List Requirement → Except EscalationReason (List Requirement)
  | [] => .ok met
  | req :: rest =>
    if req ∉ required then checkFrom lane required declared sup nowMs met rest
    else if satisfied lane declared sup nowMs req = false then .error (unmet lane req sup)
    else checkFrom lane required declared sup nowMs (met ++ [req]) rest

def check (lane : LaneFacts) (required : List Requirement) (declared : List Text) (sup : Supervisor)
    (nowMs : Int) : Except EscalationReason (List Requirement) :=
  checkFrom lane required declared sup nowMs [] Requirement.all

/-! ## The plan -/

def whyMerged : Text := "already merged into the target branch".toList
def whyWorker : Text := "a worker may still be running here".toList
def whyHead : Text :=
  "the lane's head commit cannot be resolved (its worktree is gone or has no commits)".toList
def whyTerminal : Text := "the row already reached a terminal state".toList
def whyNoStage : Text := "the row's stage is not in the configured chart".toList
def whyDispatched : Text := "the next stage has already been dispatched".toList
def whyOpen : Text := "the stage is not closed yet, so nothing follows it".toList
def whyNoAdvance : Text := "advancing is switched off in [pipeline.supervisor]".toList
def whyQueued : Text := "the lane is already on the merge queue".toList
def whyNoLand : Text := "landing is switched off in [pipeline.supervisor]".toList

/-- Where a validated lane goes. -/
def planNext (lane : LaneFacts) (pipeline : Pipeline) (sup : Supervisor) (nowMs : Int)
    (stage : PipelineStage) : SuperviseAction :=
  match stage.nextName with
  | some nextName =>
    match pipeline.stage nextName with
    | none => .escalate lane.row (.stageMissing nextName)
    | some next =>
      if nextName ∈ lane.childStages then .hold lane.row whyDispatched
      else if lane.status ≠ .done then .hold lane.row whyOpen
      else if sup.advance = false then .hold lane.row whyNoAdvance
      else
        match check lane next.parsedRequires stage.validateTasks sup nowMs with
        | .ok authorizedBy => .advance lane.row nextName authorizedBy
        | .error why => .escalate lane.row why
  | none =>
    if lane.enqueued then .hold lane.row whyQueued
    else if lane.status ≠ .done then .hold lane.row whyOpen
    else if sup.land = false then .hold lane.row whyNoLand
    else
      match check lane sup.parsedLandRequires stage.validateTasks sup nowMs with
      | .ok authorizedBy => .enqueue lane.row lane.headSha authorizedBy
      | .error why => .escalate lane.row why

def planOne (lane : LaneFacts) (pipeline : Pipeline) (sup : Supervisor) (nowMs : Int) :
    SuperviseAction :=
  if lane.mergedIntoTarget then .hold lane.row whyMerged
  else if lane.workerLive then .hold lane.row whyWorker
  else if byteLen (trim lane.headSha) < minShaPrefix then .hold lane.row whyHead
  else if lane.status = .failed ∨ lane.status = .abandoned ∨ lane.status = .merged then
    .hold lane.row whyTerminal
  else
    match pipeline.stage lane.stage with
    | none => .hold lane.row whyNoStage
    | some stage =>
      if sup.validateOnExit then
        match validationState lane stage.validateTasks with
        | .owed tasks => .validate lane.row tasks lane.headSha
        | .failed task cls => .escalate lane.row (.validationFailed task cls)
        | .unresolved task cls => .escalate lane.row (.validationUnresolved task cls)
        | .allGreen => planNext lane pipeline sup nowMs stage
      else planNext lane pipeline sup nowMs stage

def plan (lanes : List LaneFacts) (pipeline : Pipeline) (sup : Supervisor) (nowMs : Int) :
    List SuperviseAction :=
  lanes.map fun lane => planOne lane pipeline sup nowMs

/-! ## What a plan says -/

section Fold

variable {lane : LaneFacts}

/-- A task is run for want of a record, or as a retry within the budget. -/
def Owed (lane : LaneFacts) (task : Text) : Prop :=
  lane.current task = none ∨ ∃ v, lane.current task = some v ∧ v.attempts < maxValidationAttempts

theorem current_task {task : Text} {v : ValidationRecord} (h : lane.current task = some v) :
    v.task = task := by
  have hsome := List.find?_some h
  rw [Bool.and_eq_true, decide_eq_true_iff] at hsome
  exact hsome.1

/-- The owed tasks are among the declared ones, in their order. -/
theorem validationStateFrom_owed {declared owed tasks : List Text}
    (h : validationStateFrom lane owed declared = .owed tasks) :
    ∃ more, tasks = owed ++ more ∧ more.Sublist declared ∧ ∀ task ∈ more, Owed lane task := by
  induction declared generalizing owed with
  | nil =>
    rw [validationStateFrom] at h
    split_ifs at h
    cases h
    exact ⟨[], (append_nil _).symm, .slnil, fun _ h => absurd h not_mem_nil⟩
  | cons task declared ih =>
    rw [validationStateFrom] at h
    -- one more task, owed for the reason given
    have hmore : ∀ task', task' = task → Owed lane task →
        validationStateFrom lane (owed ++ [task']) declared = .owed tasks →
        ∃ more, tasks = owed ++ more ∧ more.Sublist (task :: declared) ∧
          ∀ task ∈ more, Owed lane task := by
      rintro task' rfl howed h
      obtain ⟨more, rfl, hsub, hall⟩ := ih h
      refine ⟨task' :: more, by rw [append_assoc]; rfl, hsub.cons_cons _, ?_⟩
      intro t ht
      rcases mem_cons.mp ht with rfl | ht
      · exact howed
      · exact hall t ht
    cases hcur : lane.current task with
    | none =>
      rw [hcur] at h
      exact hmore task rfl (.inl hcur) h
    | some v =>
      rw [hcur] at h
      dsimp only at h
      split_ifs at h with hgreen hblames hbudget
      · obtain ⟨more, rfl, hsub, hall⟩ := ih h
        exact ⟨more, rfl, hsub.cons _, hall⟩
      · exact hmore v.task (current_task hcur) (.inr ⟨v, hcur, hbudget⟩) h

/-- All green means that every declared task is. -/
theorem validationStateFrom_allGreen {declared owed : List Text}
    (h : validationStateFrom lane owed declared = .allGreen) :
    owed = [] ∧ ∀ task ∈ declared, ∃ v, lane.current task = some v ∧ v.cls.isGreen = true := by
  induction declared generalizing owed with
  | nil =>
    rw [validationStateFrom] at h
    split_ifs at h with howed
    exact ⟨howed, fun _ h => absurd h not_mem_nil⟩
  | cons task declared ih =>
    rw [validationStateFrom] at h
    cases hcur : lane.current task with
    | none =>
      rw [hcur] at h
      exact absurd (ih h).1 (by simp)
    | some v =>
      rw [hcur] at h
      dsimp only at h
      split_ifs at h with hgreen hblames hbudget
      · obtain ⟨howed, hall⟩ := ih h
        refine ⟨howed, fun t ht => ?_⟩
        rcases mem_cons.mp ht with rfl | ht
        · exact ⟨v, hcur, hgreen⟩
        · exact hall t ht
      · exact absurd (ih h).1 (by simp)

theorem checkFrom_ok {required : List Requirement} {declared : List Text} {sup : Supervisor}
    {now : Int} {met reqs out : List Requirement}
    (h : checkFrom lane required declared sup now met reqs = .ok out) :
    ∀ req ∈ reqs, req ∈ required → satisfied lane declared sup now req = true := by
  induction reqs generalizing met with
  | nil => exact fun _ h => absurd h not_mem_nil
  | cons r reqs ih =>
    rw [checkFrom] at h
    intro req hreq hrequired
    by_cases hskip : r ∉ required
    · rw [if_pos hskip] at h
      rcases mem_cons.mp hreq with rfl | hreq
      · exact absurd hrequired hskip
      · exact ih h req hreq hrequired
    · rw [if_neg hskip] at h
      by_cases hfail : satisfied lane declared sup now r = false
      · rw [if_pos hfail] at h
        cases h
      · rw [if_neg hfail] at h
        rcases mem_cons.mp hreq with rfl | hreq
        · exact Bool.not_eq_false _ ▸ hfail
        · exact ih h req hreq hrequired

/-- What was checked is met. -/
theorem check_ok {required : List Requirement} {declared : List Text} {sup : Supervisor} {now : Int}
    {out : List Requirement} (h : check lane required declared sup now = .ok out) :
    ∀ req ∈ required, satisfied lane declared sup now req = true := by
  intro req hreq
  refine checkFrom_ok h req ?_ hreq
  cases req with
  | parentArtifact | parentReport | validationGreen | approval => decide

end Fold

/-! ## What a plan does -/

/-- A validated lane is moved on by a check that passed, and by nothing else. -/
theorem planNext_cases (lane : LaneFacts) (pipeline : Pipeline) (sup : Supervisor) (now : Int)
    (stage : PipelineStage) :
    (∃ why, planNext lane pipeline sup now stage = .escalate lane.row why) ∨
    (∃ why, planNext lane pipeline sup now stage = .hold lane.row why) ∨
    (∃ nextName target reqs, stage.nextName = some nextName ∧
      pipeline.stage nextName = some target ∧
      check lane target.parsedRequires stage.validateTasks sup now = .ok reqs ∧
      planNext lane pipeline sup now stage = .advance lane.row nextName reqs) ∨
    (∃ reqs, stage.nextName = none ∧
      check lane sup.parsedLandRequires stage.validateTasks sup now = .ok reqs ∧
      planNext lane pipeline sup now stage = .enqueue lane.row lane.headSha reqs) := by
  unfold planNext
  cases hnext : stage.nextName with
  | some nextName =>
    dsimp only
    cases htarget : pipeline.stage nextName with
    | none => exact .inl ⟨_, rfl⟩
    | some target =>
      dsimp only
      split_ifs with hdispatched hopen hoff
      · exact .inr (.inl ⟨_, rfl⟩)
      · exact .inr (.inl ⟨_, rfl⟩)
      · exact .inr (.inl ⟨_, rfl⟩)
      · cases hcheck : check lane target.parsedRequires stage.validateTasks sup now with
        | ok reqs => exact .inr (.inr (.inl ⟨nextName, target, reqs, rfl, htarget, hcheck, rfl⟩))
        | error why => exact .inl ⟨_, rfl⟩
  | none =>
    dsimp only
    split_ifs with hqueued hopen hoff
    · exact .inr (.inl ⟨_, rfl⟩)
    · exact .inr (.inl ⟨_, rfl⟩)
    · exact .inr (.inl ⟨_, rfl⟩)
    · cases hcheck : check lane sup.parsedLandRequires stage.validateTasks sup now with
      | ok reqs => exact .inr (.inr (.inr ⟨reqs, rfl, rfl, rfl⟩))
      | error why => exact .inl ⟨_, rfl⟩

/-- Everything but an escalation or a hold is planned for a resolved head and a known stage, to
validate what is owed or to move on after a check that passed. -/
theorem planOne_cases (lane : LaneFacts) (pipeline : Pipeline) (sup : Supervisor) (now : Int) :
    (∃ why, planOne lane pipeline sup now = .escalate lane.row why) ∨
    (∃ why, planOne lane pipeline sup now = .hold lane.row why) ∨
    ∃ stage, minShaPrefix ≤ byteLen (trim lane.headSha) ∧ pipeline.stage lane.stage = some stage ∧
      ((∃ tasks, validationState lane stage.validateTasks = .owed tasks ∧
          planOne lane pipeline sup now = .validate lane.row tasks lane.headSha) ∨
        (∃ nextName target reqs, stage.nextName = some nextName ∧
          pipeline.stage nextName = some target ∧
          check lane target.parsedRequires stage.validateTasks sup now = .ok reqs ∧
          planOne lane pipeline sup now = .advance lane.row nextName reqs) ∨
        (∃ reqs, stage.nextName = none ∧
          check lane sup.parsedLandRequires stage.validateTasks sup now = .ok reqs ∧
          planOne lane pipeline sup now = .enqueue lane.row lane.headSha reqs)) := by
  unfold planOne
  split_ifs with hmerged hworker hhead hterminal hvalidate
  · exact .inr (.inl ⟨_, rfl⟩)
  · exact .inr (.inl ⟨_, rfl⟩)
  · exact .inr (.inl ⟨_, rfl⟩)
  · exact .inr (.inl ⟨_, rfl⟩)
  · cases hstage : pipeline.stage lane.stage with
    | none => exact .inr (.inl ⟨_, rfl⟩)
    | some stage =>
      dsimp only
      cases hstate : validationState lane stage.validateTasks with
      | owed tasks =>
        exact .inr (.inr ⟨stage, Nat.not_lt.mp hhead, rfl, .inl ⟨tasks, hstate, rfl⟩⟩)
      | failed task cls => exact .inl ⟨_, rfl⟩
      | unresolved task cls => exact .inl ⟨_, rfl⟩
      | allGreen =>
        rcases planNext_cases lane pipeline sup now stage with hesc | hhold | hmove
        · exact .inl hesc
        · exact .inr (.inl hhold)
        · exact .inr (.inr ⟨stage, Nat.not_lt.mp hhead, rfl, .inr hmove⟩)
  · cases hstage : pipeline.stage lane.stage with
    | none => exact .inr (.inl ⟨_, rfl⟩)
    | some stage =>
      rcases planNext_cases lane pipeline sup now stage with hesc | hhold | hmove
      · exact .inl hesc
      · exact .inr (.inl hhold)
      · exact .inr (.inr ⟨stage, Nat.not_lt.mp hhead, rfl, .inr hmove⟩)

section Moves

variable {lane : LaneFacts} {pipeline : Pipeline} {sup : Supervisor} {now row : Int}

theorem planOne_validate {tasks : List Text} {commitSha : Text}
    (h : planOne lane pipeline sup now = .validate row tasks commitSha) :
    commitSha = lane.headSha ∧ minShaPrefix ≤ byteLen (trim lane.headSha) ∧
      ∃ stage, pipeline.stage lane.stage = some stage ∧
        validationState lane stage.validateTasks = .owed tasks := by
  rcases planOne_cases lane pipeline sup now with ⟨why, heq⟩ | ⟨why, heq⟩ |
    ⟨stage, hhead, hstage, ⟨tasks', hstate, heq⟩ | ⟨nextName, target, reqs, -, -, -, heq⟩ |
      ⟨reqs, -, -, heq⟩⟩
  · cases heq.symm.trans h
  · cases heq.symm.trans h
  · cases heq.symm.trans h
    exact ⟨rfl, hhead, stage, hstage, hstate⟩
  · cases heq.symm.trans h
  · cases heq.symm.trans h

theorem planOne_advance {nextStage : Text} {reqs : List Requirement}
    (h : planOne lane pipeline sup now = .advance row nextStage reqs) :
    ∃ stage target, minShaPrefix ≤ byteLen (trim lane.headSha) ∧
      pipeline.stage lane.stage = some stage ∧ stage.nextName = some nextStage ∧
      pipeline.stage nextStage = some target ∧
      check lane target.parsedRequires stage.validateTasks sup now = .ok reqs := by
  rcases planOne_cases lane pipeline sup now with ⟨why, heq⟩ | ⟨why, heq⟩ |
    ⟨stage, hhead, hstage, ⟨tasks, -, heq⟩ | ⟨nextName, target, reqs', hnext, htarget,
      hcheck, heq⟩ |
      ⟨reqs', -, -, heq⟩⟩
  · cases heq.symm.trans h
  · cases heq.symm.trans h
  · cases heq.symm.trans h
  · cases heq.symm.trans h
    exact ⟨stage, target, hhead, hstage, hnext, htarget, hcheck⟩
  · cases heq.symm.trans h

theorem planOne_enqueue {commitSha : Text} {reqs : List Requirement}
    (h : planOne lane pipeline sup now = .enqueue row commitSha reqs) :
    commitSha = lane.headSha ∧ minShaPrefix ≤ byteLen (trim lane.headSha) ∧
      ∃ stage, pipeline.stage lane.stage = some stage ∧ stage.nextName = none ∧
        check lane sup.parsedLandRequires stage.validateTasks sup now = .ok reqs := by
  rcases planOne_cases lane pipeline sup now with ⟨why, heq⟩ | ⟨why, heq⟩ |
    ⟨stage, hhead, hstage, ⟨tasks, -, heq⟩ | ⟨nextName, target, reqs', -, -, -, heq⟩ |
      ⟨reqs', hnext, hcheck, heq⟩⟩
  · cases heq.symm.trans h
  · cases heq.symm.trans h
  · cases heq.symm.trans h
  · cases heq.symm.trans h
  · cases heq.symm.trans h
    exact ⟨rfl, hhead, stage, hstage, hnext, hcheck⟩

end Moves

end Thegn.Supervise
