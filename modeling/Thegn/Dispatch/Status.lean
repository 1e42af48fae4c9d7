import Thegn.Lib.Text

set_option autoImplicit false

/-! # The status of a dispatch

`AgentDispatchStatus` (`thegn-core/src/issue.rs`): the closed set of statuses of a roster row, and
the texts they are stored as.
-/

namespace Thegn.Dispatch

open Text

inductive AgentDispatchStatus
  | queued
  | spawning
  | running
  | waitingHuman
  | prOpen
  | merged
  | abandoned
  | done
  | failed
  /-- A stored text that is none of the others. -/
  | unknown
  deriving DecidableEq

namespace AgentDispatchStatus

def asStr : AgentDispatchStatus → Text
  | .queued => "queued".toList
  | .spawning => "spawning".toList
  | .running => "running".toList
  | .waitingHuman => "waiting_human".toList
  | .prOpen => "pr_open".toList
  | .merged => "merged".toList
  | .abandoned => "abandoned".toList
  | .done => "done".toList
  | .failed => "failed".toList
  | .unknown => "unknown".toList

/-- The statuses that a stored text can name. -/
def named : List AgentDispatchStatus :=
  [.queued, .spawning, .running, .waitingHuman, .prOpen, .merged, .abandoned, .done, .failed]

def parse (s : Text) : AgentDispatchStatus :=
  (named.find? fun st => st.asStr = trim s).getD .unknown

def isActive : AgentDispatchStatus → Bool
  | .queued | .spawning | .running | .waitingHuman | .prOpen => true
  | _ => false

theorem parse_asStr (st : AgentDispatchStatus) : parse st.asStr = st := by
  cases st with
  | queued | spawning | running | waitingHuman | prOpen | merged | abandoned | done | failed
    | unknown =>
    decide

/-- A text that names an active status is the status' own text, but for blanks around it. -/
theorem asStr_parse {s : Text} (h : (parse s).isActive = true) : (parse s).asStr = trim s := by
  unfold parse at h ⊢
  cases hfind : named.find? fun st => st.asStr = trim s with
  | none =>
    rw [hfind] at h
    cases h
  | some st =>
    have hst := List.find?_some hfind
    exact of_decide_eq_true hst

end AgentDispatchStatus

end Thegn.Dispatch

/-! ## Identities of the pipeline

`thegn-core/src/pipeline_identity.rs` and the path helpers of `pipeline_run.rs`: an issue id may
carry its provider or leave it out, and is compared without regard to case. `fileStem` is
`Path::file_stem` of the standard library on Unix.
-/

namespace Thegn.Dispatch

open Text

/-- The provider, when something follows it, and the key. -/
def splitIssueId (issueId : Text) : Option Text × Text :=
  match splitOnce [':'] issueId with
  | some (provider, key) => if key ≠ [] then (some provider, key) else (none, issueId)
  | none => (none, issueId)

def sameIssue (a b : Text) : Bool :=
  let (providerA, keyA) := splitIssueId (trim a)
  let (providerB, keyB) := splitIssueId (trim b)
  eqIgnoreAsciiCase keyA keyB &&
    match providerA, providerB with
    | some a, some b => eqIgnoreAsciiCase a b
    | _, _ => true

/-- One character of `sanitize`'s loop. -/
def sanitizeStep (out : Text) (c : Char) : Text :=
  if c.isAlphanum || c = '.' || c = '_' || c = '-' then out ++ [c]
  else if out.getLast? = some '-' then out
  else out ++ ['-']

def sanitizeComponent (raw fallback : Text) : Text :=
  let out := raw.foldl sanitizeStep []
  let edge (c : Char) : Bool := c = '-' || c = '.'
  let trimmed := trimEndMatches edge (out.dropWhile edge)
  if trimmed = [] then fallback else trimmed

def issueKey (issueId : Text) : Text := sanitizeComponent (splitIssueId issueId).2 "issue".toList

/-- A row number as text. -/
def idText (id : Int) : Text := if id < 0 then '-' :: ofNat id.natAbs else ofNat id.natAbs

def artifactPath (issueId stage : Text) (rowId : Int) : Text :=
  ".thegn/pipeline/".toList ++ issueKey issueId ++ ['/'] ++
    sanitizeComponent stage "stage".toList ++ ['/']
    ++ idText rowId ++ ".md".toList

/-- `Path::file_name`: the last component, unless it is `..`. -/
def fileName (path : Text) : Option Text :=
  match ((path.splitOn '/').filter fun c => decide (c ≠ [] ∧ c ≠ ['.'])).getLast? with
  | some last => if last = ['.', '.'] then none else some last
  | none => none

/-- `Path::file_stem`: the name up to its last dot, unless the dot is its first character. -/
def fileStem (path : Text) : Option Text :=
  (fileName path).map fun name =>
    let before := (name.reverse.dropWhile (· ≠ '.')).tail.reverse
    if before = [] then name else before

theorem eqIgnoreAsciiCase_refl (a : Text) : eqIgnoreAsciiCase a a = true := by
  simp [eqIgnoreAsciiCase]

theorem sameIssue_refl (a : Text) : sameIssue a a = true := by
  unfold sameIssue
  dsimp only
  rw [eqIgnoreAsciiCase_refl, Bool.true_and]
  split
  · rename_i h1 h2
    rw [h1] at h2
    cases h2
    exact eqIgnoreAsciiCase_refl _
  · rfl

example : sameIssue " LINEAR:the-74 ".toList "THE-74".toList = true ∧
    sameIssue "jira:X-1".toList "linear:X-1".toList = false := by decide

end Thegn.Dispatch
