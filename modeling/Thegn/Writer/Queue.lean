import Thegn.Lib.Text

set_option autoImplicit false

/-! # The terminal writer

`thegn-host/src/frame_writer.rs`: the loop submits frames and side-channel writes (kitty commands
and other passthrough, clipboard sets) to one queue, and a worker writes them to the terminal. A
side-channel write that fails is deferred, and written again after a frame that was submitted later
has been written.

The worker holds the lock of the queue for short sections only and writes between them, so that the
loop may submit at any of these places. `Phase` is where the worker stands, and one step of it is
one section or one call of the sink.
-/

namespace Thegn.Writer

abbrev Bytes := List UInt8

inductive WriterStatus
  | ok
  | transient
  | fatal (reason : Text)
  deriving DecidableEq

inductive ClipboardOutcome
  | uncertain
  | notWritten
  deriving DecidableEq

inductive Msg
  | frame (bytes : Bytes) (seq : Nat)
  | oob (bytes : Bytes)
  | clipboard (bytes : Bytes) (id : Nat)
  deriving DecidableEq

def Msg.bytes : Msg → Bytes
  | .frame b _ => b
  | .oob b => b
  | .clipboard b _ => b

/-- The two side channels. -/
inductive Channel
  | oob
  | clipboard
  deriving DecidableEq

def Msg.channel : Msg → Option Channel
  | .frame _ _ => none
  | .oob _ => some .oob
  | .clipboard _ _ => some .clipboard

structure DeferredWrite where
  msg : Msg
  deferAfter : Nat
  deriving DecidableEq

structure Q where
  msgs : List Msg
  deferred : List DeferredWrite
  framesQueued : Nat
  clipboardQueued : Nat
  clipboardBytes : Nat
  clipboardOutcome : Option (Nat × ClipboardOutcome)
  clipboardCommitted : Nat
  oobInFlight : Nat
  oobBytes : Nat
  status : WriterStatus
  consecErrs : Nat
  parserResetPending : Bool
  shutdown : Bool
  workerDone : Bool
  submittedSeq : Nat
  completedSeq : Nat
  deriving DecidableEq

def frameQueueDepth : Nat := 2
def oobQueueCount : Nat := 128
def oobQueueBytes : Nat := 4 * 1024 * 1024
def maxDecoded : Nat := 64 * 1024
def maxWire : Nat := (maxDecoded + 2) / 3 * 4 + 9
def retryMax : Nat := 30

def Q.new : Q where
  msgs := []
  deferred := []
  framesQueued := 0
  clipboardQueued := 0
  clipboardBytes := 0
  clipboardOutcome := none
  clipboardCommitted := 0
  oobInFlight := 0
  oobBytes := 0
  status := .ok
  consecErrs := 0
  parserResetPending := false
  shutdown := false
  workerDone := false
  submittedSeq := 0
  completedSeq := 0

def Q.isFatal (q : Q) : Bool :=
  match q.status with
  | .fatal _ => true
  | _ => false

/-- `saturating_add(1)` on a `u64`. -/
def succSaturating (n : Nat) : Nat := min (n + 1) (2 ^ 64 - 1)

/-! ## Submitting -/

def submitFrame (q : Q) (bytes : Bytes) : Q × Option Msg :=
  if q.shutdown || q.isFatal || decide (frameQueueDepth ≤ q.framesQueued) then (q, none)
  else
    let target := succSaturating q.submittedSeq
    let msg := Msg.frame bytes target
    ({ q with submittedSeq := target, framesQueued := q.framesQueued + 1, msgs := q.msgs ++ [msg] },
      some msg)

def admitOob (q : Q) (bytes : Bytes) : Q × Option Msg :=
  if bytes.isEmpty then (q, none)
  else if q.shutdown || q.isFatal || decide (oobQueueCount ≤ q.oobInFlight)
      || decide (oobQueueBytes - q.oobBytes < bytes.length) then (q, none)
  else
    let msg := Msg.oob bytes
    ({ q with
      submittedSeq := succSaturating q.submittedSeq
      oobInFlight := q.oobInFlight + 1
      oobBytes := q.oobBytes + bytes.length
      msgs := q.msgs ++ [msg] }, some msg)

def admitClipboard (q : Q) (bytes : Bytes) (byteBudget : Nat) : Q × Option Msg :=
  if q.shutdown || q.isFatal || decide (4 ≤ q.clipboardQueued)
      || decide (byteBudget < q.clipboardBytes + bytes.length) then (q, none)
  else
    let target := succSaturating q.submittedSeq
    let msg := Msg.clipboard bytes target
    ({ q with
      clipboardQueued := q.clipboardQueued + 1
      clipboardBytes := q.clipboardBytes + bytes.length
      submittedSeq := target
      msgs := q.msgs ++ [msg] }, some msg)

/-- `locked`: another thread holds the lock, so that `try_lock` would block. -/
def trySubmitClipboard (q : Q) (bytes : Bytes) (locked : Bool) : Q × Option Msg :=
  if maxWire < bytes.length then (q, none)
  else if locked then (q, none)
  else admitClipboard q bytes (4 * maxWire)

def trySubmitHostClipboard (q : Q) (bytes : Bytes) : Q × Option Msg :=
  if bytes.isEmpty then (q, none)
  else if oobQueueBytes < bytes.length then (q, none)
  else admitClipboard q bytes oobQueueBytes

/-! ## Accounting -/

def noteClipboard (q : Q) (id : Nat) (outcome : Option ClipboardOutcome) : Q :=
  match outcome with
  | none =>
    { q with
      clipboardCommitted := max q.clipboardCommitted id
      clipboardOutcome := q.clipboardOutcome.filter (fun p => !decide (p.1 ≤ id)) }
  | some outcome =>
    if q.clipboardCommitted < id then
      let replace : Bool := match q.clipboardOutcome with
        | some (pendingId, pending) =>
          if id < pendingId then false
          else if pendingId = id ∧ pending = .uncertain then false
          else true
        | none => true
      if replace then { q with clipboardOutcome := some (id, outcome) } else q
    else q

/-- What becomes of a clipboard set that a message holds. -/
def noteMsg (q : Q) (msg : Msg) (outcome : Option ClipboardOutcome) : Q :=
  match msg with
  | .clipboard _ id => noteClipboard q id outcome
  | _ => q

def releaseMessageCapacity (q : Q) (msg : Msg) : Q :=
  match msg with
  | .frame _ _ => q
  | .oob bytes => { q with oobInFlight := q.oobInFlight - 1, oobBytes := q.oobBytes - bytes.length }
  | .clipboard bytes _ =>
    { q with clipboardQueued := q.clipboardQueued - 1,
             clipboardBytes := q.clipboardBytes - bytes.length }

/-- The total size of the passthrough messages. -/
def oobSize (msgs : List Msg) : Nat :=
  (msgs.map fun m => if m.channel = some .oob then m.bytes.length else 0).sum

def clipboardSize (msgs : List Msg) : Nat :=
  (msgs.map fun m => if m.channel = some .clipboard then m.bytes.length else 0).sum

def countOf (c : Channel) (msgs : List Msg) : Nat := msgs.countP (fun m => m.channel = some c)

def Q.deferredMsgs (q : Q) : List Msg := q.deferred.map (·.msg)

def abandonQueuedMessages (q : Q) : Q :=
  let q := if q.isFatal then q else { q with
    status := .fatal "terminal writer shutdown deadline".toList }
  let q := q.msgs.foldl (fun q m => noteMsg q m (some .notWritten)) q
  let q := q.deferredMsgs.foldl (fun q m => noteMsg q m (some .uncertain)) q
  { q with
    msgs := []
    deferred := []
    framesQueued := 0
    oobInFlight := q.oobInFlight - (countOf .oob q.msgs + countOf .oob q.deferredMsgs)
    oobBytes := q.oobBytes - (oobSize q.msgs + oobSize q.deferredMsgs)
    clipboardQueued := 0
    clipboardBytes := 0 }

def abandonDeferredWrites (q : Q) : Q :=
  let q := q.deferredMsgs.foldl (fun q m => noteMsg q m (some .uncertain)) q
  { q with
    deferred := []
    oobInFlight := q.oobInFlight - countOf .oob q.deferredMsgs
    oobBytes := q.oobBytes - oobSize q.deferredMsgs
    clipboardQueued := q.clipboardQueued - countOf .clipboard q.deferredMsgs
    clipboardBytes := q.clipboardBytes - clipboardSize q.deferredMsgs }

def popMessage (q : Q) : Option (Msg × Q) :=
  match q.msgs with
  | [] => none
  | m :: rest =>
    let framesQueued := if m.channel.isNone then q.framesQueued - 1 else q.framesQueued
    some (m, { q with msgs := rest, framesQueued })

/-! ## Writing -/

/-- What a call of the sink returns; an error with its text. -/
inductive SinkResult
  | ok
  | error (isTransient : Bool) (text : Text)
  deriving DecidableEq

def SinkResult.isErr : SinkResult → Bool
  | .ok => false
  | .error _ _ => true

def applyWriteResult (q : Q) (result : SinkResult) : Q :=
  match result with
  | .ok => { q with consecErrs := 0 }
  | .error isTransient text =>
    if q.isFatal then q
    else
      let errs := q.consecErrs + 1
      let status : WriterStatus :=
        if !isTransient || decide (retryMax < errs) then
          .fatal ("terminal write failed (".toList ++ text ++ ") after ".toList ++ Text.ofNat errs
            ++ " attempt(s)".toList)
        else .transient
      { q with parserResetPending := true, consecErrs := errs, status }

/-- A terminal that failed for good is given up, with everything that waits. -/
def giveUp (q : Q) : Q := if q.isFatal then abandonQueuedMessages q else q

/-- A message that was tried is deferred, or done with. -/
def park (workerFrames : Bool) (q : Q) (msg : Msg) (result : SinkResult) : Q :=
  if result.isErr && workerFrames && msg.channel.isSome then
    { q with deferred := q.deferred ++ [⟨msg, q.submittedSeq⟩] }
  else
    releaseMessageCapacity (noteMsg q msg (if result.isErr then some .uncertain else none)) msg

/-- The number of a frame that was written. -/
def successfulFrameSeq (msg : Msg) (result : SinkResult) : Option Nat :=
  match msg with
  | .frame _ seq => if result.isErr then none else some seq
  | _ => none

/-- The deferred messages that may be written again after the frame `frameSeq`. -/
def readyDeferred (frameSeq : Option Nat) (q : Q) : List DeferredWrite :=
  match frameSeq with
  | some seq => q.deferred.takeWhile (fun d => decide (d.deferAfter < seq))
  | none => []

def takeReady (frameSeq : Option Nat) (q : Q) : Q × List Msg :=
  let replay := readyDeferred frameSeq q
  ({ q with deferred := q.deferred.drop replay.length }, replay.map (·.msg))

/-- The section after the write of a message: the queue afterwards, and the deferred messages to
write again. -/
def settleWrite (workerFrames : Bool) (q : Q) (msg : Msg) (result : SinkResult) : Q × List Msg :=
  let frameSeq := successfulFrameSeq msg result
  let q := park workerFrames q msg result
  let q := if !result.isErr && !(readyDeferred frameSeq q).isEmpty then q
    else applyWriteResult q result
  let (q, replay) := takeReady frameSeq (giveUp q)
  ({ q with completedSeq := succSaturating q.completedSeq }, replay)

/-- The section after the write of a deferred message. -/
def settleReplay (q : Q) (msg : Msg) (rest : List Msg) (result : SinkResult) : Q :=
  let q :=
    if result.isErr then
      { q with deferred := (msg :: rest).map (fun m => ⟨m, q.submittedSeq⟩) ++ q.deferred }
    else releaseMessageCapacity (noteMsg q msg none) msg
  giveUp (applyWriteResult q result)

/-! ## The worker -/

inductive Phase
  | idle
  | taken (msg : Msg)
  | dropped
  | ready (msg : Msg)
  | resetting (msg : Msg)
  | wasReset (msg : Msg)
  | writing (msg : Msg)
  | wrote (msg : Msg) (result : SinkResult)
  | replay (msgs : List Msg)
  | rewriting (msg : Msg) (rest : List Msg)
  | rewrote (msg : Msg) (rest : List Msg) (result : SinkResult)
  | exited
  deriving DecidableEq

/-- The writer, with what was admitted to the queue and what the sink has taken, oldest first. -/
structure State where
  q : Q
  worker : Phase
  admissions : List Msg
  written : List Msg

def State.new : State := ⟨Q.new, .idle, [], []⟩

/-- One step of the worker; `sink` is what a call of the sink returns, where the step is one. -/
def work (s : State) (sink : SinkResult) : State :=
  match s.worker with
  | .idle =>
    match popMessage s.q with
    | some (m, q) => { s with q, worker := .taken m }
    | none =>
      if s.q.shutdown then { s with
        q := { abandonDeferredWrites s.q with workerDone := true }, worker := .exited }
      else s
  | .taken m =>
    if s.q.isFatal then
      { s with q := releaseMessageCapacity (noteMsg s.q m (some .notWritten)) m,
               worker := .dropped }
    else { s with worker := .ready m }
  | .dropped =>
    { s with q := { s.q with completedSeq := succSaturating s.q.completedSeq }, worker := .idle }
  | .ready m => { s with worker := if s.q.parserResetPending then .resetting m else .writing m }
  | .resetting m => { s with worker := if sink.isErr then .wrote m sink else .wasReset m }
  | .wasReset m =>
    -- a terminal that failed meanwhile is written to no more, and the message counts as written
    { s with
      q := { s.q with parserResetPending := false }
      worker := if s.q.isFatal then .wrote m .ok else .writing m }
  | .writing m =>
    { s with
      worker := .wrote m sink
      written := if sink.isErr then s.written else s.written ++ [m] }
  | .wrote m result =>
    let (q, replay) := settleWrite true s.q m result
    { s with q, worker := .replay replay }
  | .replay [] => { s with worker := .idle }
  | .replay (m :: rest) =>
    if s.q.isFatal then
      let q := (m :: rest).foldl (fun q m =>
        releaseMessageCapacity (noteMsg q m (some .uncertain)) m) s.q
      { s with q, worker := .idle }
    else { s with worker := .rewriting m rest }
  | .rewriting m rest =>
    { s with
      worker := .rewrote m rest sink
      written := if sink.isErr then s.written else s.written ++ [m] }
  | .rewrote m rest result =>
    { s with
      q := settleReplay s.q m rest result
      worker := if result.isErr then .idle else .replay rest }
  | .exited => s

/-! ## Everything that happens -/

inductive Event
  | submitFrame (bytes : Bytes)
  | trySubmitOob (bytes : Bytes)
  | trySubmitClipboard (bytes : Bytes) (locked : Bool)
  | trySubmitHostClipboard (bytes : Bytes)
  | takeStatus
  | syncDeadline
  | shutdown
  | shutdownDeadline
  | work (sink : SinkResult)
  deriving DecidableEq

/-- A submission, noted if it was admitted. -/
def recordAdmission (s : State) (r : Q × Option Msg) : State :=
  { s with q := r.1, admissions := s.admissions ++ r.2.toList }

def step (s : State) : Event → State
  | .submitFrame bytes => recordAdmission s (submitFrame s.q bytes)
  | .trySubmitOob bytes => recordAdmission s (admitOob s.q bytes)
  | .trySubmitClipboard bytes locked => recordAdmission s (trySubmitClipboard s.q bytes locked)
  | .trySubmitHostClipboard bytes => recordAdmission s (trySubmitHostClipboard s.q bytes)
  | .takeStatus =>
    { s with q := { s.q with status := if s.q.status = .transient then .ok else s.q.status } }
  | .syncDeadline =>
    { s with q := abandonQueuedMessages { s.q with
      status := .fatal "synchronous terminal write deadline".toList } }
  | .shutdown => { s with q := { s.q with shutdown := true } }
  | .shutdownDeadline => { s with q := abandonQueuedMessages s.q }
  | .work sink => work s sink

end Thegn.Writer
