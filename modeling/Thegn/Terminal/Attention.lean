import Thegn.Lib.Utf8
import Thegn.Lib.Run

set_option autoImplicit false

/-! # Raised hands

`thegn-core/src/osc_attention.rs`: a process asks for attention with the escape sequence `OSC 9` or
`OSC 777`, and the scanner finds these in the bytes of a terminal, in whatever chunks they arrive
(`feeds_eq`). A complete notification is found behind everything except an unterminated payload:
there its `ESC` abandons the payload and its `]` is dropped (`raised_hand_iff`).
-/

namespace Thegn.Attention

open Text Transducer
open List hiding after

abbrev Bytes := List UInt8

/-! ## Signals -/

structure AttentionSignal where
  title : Option Text
  body : Text
  deriving DecidableEq

def maxOscPayload : Nat := 4096

def isLoneDigit (b : Bytes) : Bool :=
  match b with
  | [c] => 0x30 ≤ c && c ≤ 0x39
  | _ => false

def decode (b : Bytes) : Text := trim (fromUtf8Lossy b)

def join (parts : List Bytes) : Text := trim ([';'].intercalate (parts.map fromUtf8Lossy))

def signalOwned (title : Option Text) (body : Text) : Option AttentionSignal :=
  if body.isEmpty then none else some { title := title, body := body }

def signal (title : Option Text) (body : Bytes) : Option AttentionSignal :=
  signalOwned title (decode body)

/-- The parameters of a sequence as a signal. `OSC 9` with more parameters, or a single digit, is
something else. -/
def parseOsc : List Bytes → Option AttentionSignal
  | [] => none
  | num :: rest =>
    if num = utf8 "9".toList then
      match rest with
      | [text] => if isLoneDigit text then none else signal none text
      | _ => none
    else if num = utf8 "777".toList then
      match rest with
      | [] => none
      | sub :: args =>
        if sub ≠ utf8 "notify".toList then none
        else
          match args with
          | [] => none
          | [body] => signal none body
          | title :: body =>
            let t := decode title
            signalOwned (if t.isEmpty then none else some t) (join body)
    else none

/-! ## The scanner -/

inductive State
  | idle
  | esc
  | body
  | bodyEsc
  deriving DecidableEq

structure OscAttentionScanner where
  state : State
  payload : Bytes
  /-- the payload was too long, and the rest of it is dropped -/
  overrun : Bool
  deriving DecidableEq

namespace OscAttentionScanner

def new : OscAttentionScanner := { state := .idle, payload := [], overrun := false }

def push (s : OscAttentionScanner) (b : UInt8) : OscAttentionScanner :=
  if s.overrun then s
  else if maxOscPayload ≤ s.payload.length then { s with overrun := true, payload := [] }
  else { s with payload := s.payload ++ [b] }

def reset (_ : OscAttentionScanner) : OscAttentionScanner :=
  { state := .idle, payload := [], overrun := false }

def finish (s : OscAttentionScanner) : Option AttentionSignal × OscAttentionScanner :=
  (if s.overrun then none else parseOsc (s.payload.splitOn 0x3b), s.reset)

/-- A round of the loop of `feed`. -/
def step (s : OscAttentionScanner) (b : UInt8) : Option AttentionSignal × OscAttentionScanner :=
  match s.state with
  | .idle => (none, if b = 0x1b then { s with state := .esc } else s)
  | .esc =>
    if b = 0x5d then (none, { state := .body, payload := [], overrun := false })
    else if b = 0x1b then (none, s)
    else (none, { s with state := .idle })
  | .body =>
    if b = 0x07 then s.finish
    else if b = 0x1b then (none, { s with state := .bodyEsc })
    else (none, s.push b)
  | .bodyEsc =>
    if b = 0x5c then s.finish
    else (none, if b = 0x1b then { s.reset with state := .esc } else s.reset)

def feed (s : OscAttentionScanner) (bytes : Bytes) : List AttentionSignal × OscAttentionScanner :=
  if s.state = .idle ∧ 0x1b ∉ bytes then ([], s)
  else ((answers step s bytes).filterMap id, after step s bytes)

/-- The chunks one after the other. -/
def feeds (s : OscAttentionScanner) : List Bytes → List AttentionSignal × OscAttentionScanner
  | [] => ([], s)
  | chunk :: chunks =>
    ((s.feed chunk).1 ++ ((s.feed chunk).2.feeds chunks).1, ((s.feed chunk).2.feeds chunks).2)

end OscAttentionScanner

open OscAttentionScanner

/-- `ESC ]`, a payload, and `BEL` or `ESC \`. -/
def IsNotification (n : Bytes) (sig : AttentionSignal) : Prop :=
  ∃ payload terminator : Bytes, n = 0x1b :: 0x5d :: (payload ++ terminator) ∧
    (terminator = [0x07] ∨ terminator = [0x1b, 0x5c]) ∧
    payload.length ≤ maxOscPayload ∧ (∀ b ∈ payload, b ≠ 0x1b ∧ b ≠ 0x07) ∧
      parseOsc (payload.splitOn 0x3b) = some sig

/-! ## Chunks -/

variable {s : OscAttentionScanner}

theorem step_idle (hs : s.state = .idle) {b : UInt8} (hb : b ≠ 0x1b) : step s b = (none, s) := by
  rw [step, hs]
  exact congrArg (Prod.mk none) (if_neg hb)

/-- Outside of sequences the scanner passes over ordinary bytes. -/
theorem run_idle (hs : s.state = .idle) {bytes : Bytes} (h : 0x1b ∉ bytes) :
    (answers step s bytes).filterMap id = [] ∧ after step s bytes = s := by
  induction bytes with
  | nil => exact ⟨rfl, rfl⟩
  | cons b bytes ih =>
    have hb : b ≠ 0x1b := fun heq => h (heq ▸ (.head _))
    obtain ⟨hanswers, hafter⟩ := ih fun hmem => h (mem_cons_of_mem b hmem)
    rw [answers_cons, after_cons, step_idle hs hb]
    exact ⟨hanswers, hafter⟩

/-- The shortcut of `feed` skips nothing. -/
theorem feed_eq (s : OscAttentionScanner) (bytes : Bytes) :
    s.feed bytes = ((answers step s bytes).filterMap id, after step s bytes) := by
  unfold feed
  split_ifs with h
  · obtain ⟨hanswers, hafter⟩ := run_idle h.1 h.2
    rw [hanswers, hafter]
  · rfl

theorem feed_append (s : OscAttentionScanner) (a b : Bytes) :
    s.feed (a ++ b) = ((s.feed a).1 ++ ((s.feed a).2.feed b).1, ((s.feed a).2.feed b).2) := by
  rw [feed_eq, feed_eq, feed_eq, answers_append, after_append, filterMap_append]

/-- **The signals do not depend on the chunks.** -/
theorem feeds_eq (s : OscAttentionScanner) (chunks : List Bytes) :
    s.feeds chunks = s.feed chunks.flatten := by
  induction chunks generalizing s with
  | nil => exact (feed_eq s []).symm
  | cons chunk chunks ih => rw [feeds, flatten_cons, feed_append, ih]

/-! ## Notifications -/

/-- A payload is collected. -/
theorem run_body {payload : Bytes} (hs : s.state = .body) (hover : s.overrun = false)
    (hlen : s.payload.length + payload.length ≤ maxOscPayload)
    (h : ∀ b ∈ payload, b ≠ 0x1b ∧ b ≠ 0x07) :
    (answers step s payload).filterMap id = [] ∧
    after step s payload = { s with payload := s.payload ++ payload } := by
  induction payload generalizing s with
  | nil => exact ⟨rfl, by rw [append_nil]; rfl⟩
  | cons b payload ih =>
    obtain ⟨hesc, hbel⟩ := h b (.head _)
    rw [length_cons] at hlen
    have hstep : step s b = (none, s.push b) := by
      rw [step, hs]
      exact (if_neg hbel).trans (if_neg hesc)
    have hpush : s.push b = { s with payload := s.payload ++ [b] } := by
      rw [push, if_neg (by simp [hover]), if_neg (by omega)]
    obtain ⟨hanswers, hafter⟩ := ih (s := { s with payload := s.payload ++ [b] }) hs hover
      (by rw [length_append, length_singleton]; omega) fun c hc => h c (mem_cons_of_mem b hc)
    rw [answers_cons, after_cons, hstep, hpush]
    exact ⟨hanswers, by rw [hafter, append_assoc]; rfl⟩

/-- A payload and its terminator. -/
theorem run_payload {payload terminator : Bytes} (hlen : payload.length ≤ maxOscPayload)
    (h : ∀ b ∈ payload, b ≠ 0x1b ∧ b ≠ 0x07)
    (hterm : terminator = [0x07] ∨ terminator = [0x1b, 0x5c]) :
    (feed { state := .body, payload := [], overrun := false } (payload ++ terminator)).1 =
      (parseOsc (payload.splitOn 0x3b)).toList := by
  obtain ⟨hanswers, hafter⟩ :=
    run_body (s := { state := .body, payload := [], overrun := false }) rfl rfl
    (by rw [length_nil, Nat.zero_add]; exact hlen) h
  rw [feed_append, feed_eq, feed_eq, hanswers, hafter]
  rcases hterm with rfl | rfl
  · show [parseOsc (payload.splitOn 0x3b)].filterMap id = _
    cases parseOsc (payload.splitOn 0x3b) <;> rfl
  · show [none, parseOsc (payload.splitOn 0x3b)].filterMap id = _
    cases parseOsc (payload.splitOn 0x3b) <;> rfl

/-- The introducer is seen in every state but one. -/
theorem feed_introducer (hs : s.state ≠ .body) :
    s.feed [0x1b, 0x5d] = ([], { state := .body, payload := [], overrun := false }) := by
  rw [feed_eq]
  unfold after answers
  cases hstate : s.state with
  | body => exact absurd hstate hs
  | idle => simp [step, hstate, answers]
  | esc => simp [step, hstate, answers]
  | bodyEsc => simp [step, hstate, answers]

/-- In a payload the introducer leaves the scanner outside of every sequence. -/
theorem feed_introducer_body (hs : s.state = .body) : s.feed [0x1b, 0x5d] = ([], new) := by
  rw [feed_eq]
  simp [step, hs, answers, after, reset, new]

/-- What is left of a notification without its introducer is no sequence. -/
theorem feed_rest {payload terminator : Bytes} (h : ∀ b ∈ payload, b ≠ 0x1b ∧ b ≠ 0x07)
    (hterm : terminator = [0x07] ∨ terminator = [0x1b, 0x5c]) :
    (new.feed (payload ++ terminator)).1 = [] := by
  obtain ⟨hanswers, hafter⟩ := run_idle (s := new) rfl fun hmem => (h _ hmem).1 rfl
  rw [feed_append, feed_eq new payload, hanswers, hafter]
  rcases hterm with rfl | rfl <;> rfl

/-- **A notification is found exactly when the scanner is not in a payload as it begins**; and no
cut into chunks matters. -/
theorem raised_hand_iff (chunks : List Bytes) (p n : Bytes) (sig : AttentionSignal)
    (h : IsNotification n sig) :
    (new.feeds chunks).1 = (new.feed chunks.flatten).1 ∧
      ((new.feed (p ++ n)).1 = (new.feed p).1 ++ [sig] ↔ (new.feed p).2.state ≠ .body) := by
  refine ⟨by rw [feeds_eq], ?_⟩
  obtain ⟨payload, terminator, rfl, hterm, hlen, hpayload, hparse⟩ := h
  have hsplit : (0x1b : UInt8) :: 0x5d :: (payload ++ terminator) =
    [0x1b, 0x5d] ++ (payload ++ terminator) := rfl
  rw [feed_append, hsplit, feed_append]
  by_cases hs : (new.feed p).2.state = .body
  · rw [feed_introducer_body hs]
    dsimp only
    rw [feed_rest hpayload hterm]
    simp [hs]
  · rw [feed_introducer hs]
    dsimp only
    rw [run_payload hlen hpayload hterm, hparse]
    simp [hs]

/-- `ESC ] 9 ; h i BEL`. -/
def hi : Bytes := [0x1b, 0x5d, 0x39, 0x3b, 0x68, 0x69, 0x07]

theorem isNotification_hi : IsNotification hi ⟨none, ['h', 'i']⟩ := by
  refine ⟨[0x39, 0x3b, 0x68, 0x69], [0x07], rfl, .inl rfl, by decide, by simp, ?_⟩
  have hsplit : ([0x39, 0x3b, 0x68, 0x69] : Bytes).splitOn 0x3b = [[0x39], utf8 ['h', 'i']] := by
    decide
  have hdecode : decode (utf8 ['h', 'i']) = ['h', 'i'] := by
    rw [decode, fromUtf8Lossy_utf8]
    decide
  rw [hsplit]
  show signal none (utf8 ['h', 'i']) = _
  rw [signal, hdecode]
  rfl

/-- A raised hand behind `l ESC`. -/
theorem raised_hand_escape :
    (new.feed ([0x6c, 0x1b] ++ hi)).1 = (new.feed [0x6c, 0x1b]).1 ++ [⟨none, ['h', 'i']⟩] :=
  (raised_hand_iff [] [0x6c, 0x1b] hi _ isNotification_hi).2.mpr (by decide)

/-- A raised hand behind `ESC ] 0 ; x`, the beginning of a window title. -/
theorem raised_hand_swallowed :
    IsNotification hi ⟨none, ['h', 'i']⟩ ∧
    (new.feed ([0x1b, 0x5d, 0x30, 0x3b, 0x78] ++ hi)).1 = [] ∧
      (new.feed [0x1b, 0x5d, 0x30, 0x3b, 0x78]).1 = [] :=
  ⟨isNotification_hi, by decide, by decide⟩

end Thegn.Attention
