import Mathlib
import Thegn.Lib.Run

set_option autoImplicit false

/-! # The circuit breaker of an upstream

`thegn-core/src/mcp/proxy/breaker.rs`: a breaker opens after a run of failures, refuses calls until
its cooldown is over, and then lets a probe through, whose outcome closes it or opens it again.
Clock readings are passed in. Calls may overlap, so an outcome may be reported in any state.
-/

namespace Thegn.Mcp

open Transducer
open List hiding after

/-! ## The machine -/

inductive BreakerState
  | closed
  | open_
  | halfOpen
  deriving DecidableEq

structure BreakerConfig where
  failureThreshold : UInt32
  cooldownMs : Int64

structure Breaker where
  cfg : BreakerConfig
  state : BreakerState
  consecutiveFailures : UInt32
  openedAt : Int64

namespace Breaker

def new (cfg : BreakerConfig) : Breaker where
  cfg := { failureThreshold := max cfg.failureThreshold 1, cooldownMs := max cfg.cooldownMs 0 }
  state := .closed
  consecutiveFailures := 0
  openedAt := 0

/-- `i64::saturating_sub`. -/
def saturatingSub (a b : Int64) : Int := max (-2 ^ 63) (min (2 ^ 63 - 1) (a.toInt - b.toInt))

/-- `saturating_add(1)` of a `u32`. -/
def saturatingSucc (n : UInt32) : UInt32 := if n.toNat + 1 < 2 ^ 32 then n + 1 else n

def cooledDown (b : Breaker) (nowMs : Int64) : Bool :=
  b.cfg.cooldownMs.toInt ≤ saturatingSub nowMs b.openedAt

def allow (b : Breaker) (nowMs : Int64) : Bool × Breaker :=
  match b.state with
  | .closed | .halfOpen => (true, b)
  | .open_ => if b.cooledDown nowMs then (true, { b with state := .halfOpen }) else (false, b)

def onSuccess (b : Breaker) : Breaker := { b with consecutiveFailures := 0, state := .closed }

def onFailure (b : Breaker) (nowMs : Int64) : Breaker :=
  let b := { b with consecutiveFailures := saturatingSucc b.consecutiveFailures }
  match b.state with
  | .halfOpen => { b with state := .open_, openedAt := nowMs }
  | .closed =>
    if b.cfg.failureThreshold ≤ b.consecutiveFailures
      then { b with state := .open_, openedAt := nowMs } else b
  -- already open: the clock is not reset
  | .open_ => b

end Breaker

/-! ## Histories -/

inductive Call
  | allow (nowMs : Int64)
  | onSuccess
  | onFailure (nowMs : Int64)
  deriving DecidableEq

/-- The clock reading a call is made with. -/
def Call.now : Call → Option Int64
  | .allow now => some now
  | .onSuccess => none
  | .onFailure now => some now

def Call.isFailure : Call → Bool
  | .onFailure _ => true
  | _ => false

/-- One call: what it answers, if it is one of `allow`, and the breaker afterwards. -/
def Breaker.call (b : Breaker) : Call → Option Bool × Breaker
  | .allow now => (some (b.allow now).1, (b.allow now).2)
  | .onSuccess => (none, b.onSuccess)
  | .onFailure now => (none, b.onFailure now)

/-- The clock never goes back. -/
def Clocked (calls : List Call) : Prop :=
  (calls.filterMap Call.now).Pairwise fun s t => s.toInt ≤ t.toInt

/-- The breaker after the calls. -/
def breakerAfter (cfg : BreakerConfig) (calls : List Call) : Breaker :=
  after Breaker.call (Breaker.new cfg) calls

/-- The calls end with `n` failures, and no success between them. -/
def FailureRun (n : Nat) (calls : List Call) : Prop :=
  ∃ before run, calls = before ++ run ∧ .onSuccess ∉ run ∧ n ≤ run.countP Call.isFailure

/-- After `before`, the call `c` opens the breaker. -/
def Opens (cfg : BreakerConfig) (before : List Call) (c : Call) : Prop :=
  (breakerAfter cfg before).state ≠ .open_ ∧ (breakerAfter cfg (before ++ [c])).state = .open_

/-- **What a breaker is for**: it opens for a reason, refuses until its cooldown is over, and lets
one probe through. -/
structure FencesAndProbesOnce (cfg : BreakerConfig) (calls : List Call) : Prop where
  opens : ∀ before c rest, calls = before ++ c :: rest →
    (Opens cfg before c ↔ c.isFailure = true ∧
      ((breakerAfter cfg before).state = .halfOpen ∨
        (breakerAfter cfg before).state = .closed ∧
          FailureRun cfg.failureThreshold.toNat (before ++ [c])))
  fenced : ∀ before t mid now rest, calls = before ++ .onFailure t :: mid ++ .allow now :: rest →
    Opens cfg before (.onFailure t) → .onSuccess ∉ mid →
      now.toInt < t.toInt + cfg.cooldownMs.toInt →
    ((breakerAfter cfg (before ++ .onFailure t :: mid)).allow now).1 = false
  probesOnce : ∀ before t mid probes rest, calls = before ++ .onFailure t :: mid ++ probes ++ rest →
    Opens cfg before (.onFailure t) → .onSuccess ∉ mid →
    (∀ c ∈ probes, ∃ now, c = .allow now ∧ t.toInt + cfg.cooldownMs.toInt ≤ now.toInt) →
    (answers Breaker.call (breakerAfter cfg (before ++ .onFailure t :: mid)) probes).count
      (some true) ≤ 1

/-! ## One call -/

namespace Breaker

/-- The limits that a breaker for `cfg` has. -/
structure Ready (cfg : BreakerConfig) (b : Breaker) : Prop where
  threshold : b.cfg.failureThreshold = max cfg.failureThreshold 1
  cooldown : b.cfg.cooldownMs = max cfg.cooldownMs 0

section Step

variable {cfg : BreakerConfig} {b : Breaker} {now : Int64}

/-- The cooldown is over when the clock says so, whatever saturates. -/
theorem Ready.cooledDown_iff (h : b.Ready cfg) :
    b.cooledDown now = true ↔ b.openedAt.toInt + max cfg.cooldownMs.toInt 0 ≤ now.toInt := by
  have hzero : (0 : Int64).toInt = 0 := rfl
  have hmax : (max cfg.cooldownMs 0).toInt = max cfg.cooldownMs.toInt 0 := by
    rw [show max cfg.cooldownMs 0 = if cfg.cooldownMs ≤ 0 then 0 else cfg.cooldownMs from rfl]
    split <;> rename_i hle <;> rw [Int64.le_iff_toInt_le, hzero] at hle <;> omega
  have hcool := cfg.cooldownMs.toInt_lt
  rw [cooledDown, decide_eq_true_eq, h.cooldown, hmax, saturatingSub]
  omega

theorem saturatingSucc_toNat (n : UInt32) :
    (saturatingSucc n).toNat = min (n.toNat + 1) (2 ^ 32 - 1) := by
  have hlt := n.toNat_lt
  unfold saturatingSucc
  split <;> rename_i h
  · rw [UInt32.toNat_add, UInt32.toNat_one, Nat.mod_eq_of_lt h]
    omega
  · omega

/-- What `allow` does: a breaker whose cooldown is over is half open afterwards, any other is left
alone. -/
theorem allow_cases (b : Breaker) (now : Int64) :
    (b.state = .open_ ∧ b.cooledDown now = true ∧
      b.allow now = (true, { b with state := .halfOpen })) ∨
    (b.state = .open_ ∧ b.cooledDown now = false ∧ b.allow now = (false, b)) ∨
    (b.state ≠ .open_ ∧ b.allow now = (true, b)) := by
  unfold allow
  cases hs : b.state with
  | closed => exact .inr (.inr ⟨by simp, rfl⟩)
  | halfOpen => exact .inr (.inr ⟨by simp, rfl⟩)
  | open_ =>
    cases hc : b.cooledDown now with
    | true => exact .inl ⟨rfl, rfl, rfl⟩
    | false => exact .inr (.inl ⟨rfl, rfl, rfl⟩)

/-- What a failure does to the state: it opens the breaker now, or leaves it as it is, which it does
not when the breaker is half open. -/
theorem onFailure_cases (b : Breaker) (now : Int64) :
    ((b.state = .halfOpen ∨ b.state = .closed ∧ b.cfg.failureThreshold ≤
      saturatingSucc b.consecutiveFailures) ∧
      (b.onFailure now).state = .open_ ∧ (b.onFailure now).openedAt = now) ∨
    ((b.state = .open_ ∨ b.state = .closed ∧ ¬ b.cfg.failureThreshold ≤
      saturatingSucc b.consecutiveFailures) ∧
      (b.onFailure now).state = b.state ∧ (b.onFailure now).openedAt = b.openedAt) := by
  unfold onFailure
  cases hs : b.state with
  | halfOpen => exact .inl ⟨.inl rfl, by simp, by simp⟩
  | open_ => exact .inr ⟨.inl rfl, by simp, by simp⟩
  | closed =>
    by_cases hle : b.cfg.failureThreshold ≤ saturatingSucc b.consecutiveFailures
    · exact .inl ⟨.inr ⟨rfl, hle⟩, by simp [hle], by simp [hle]⟩
    · exact .inr ⟨.inr ⟨rfl, hle⟩, by simp [hle], by simp [hle]⟩

theorem onFailure_failures (b : Breaker) (now : Int64) :
    (b.onFailure now).consecutiveFailures = saturatingSucc b.consecutiveFailures := by
  unfold onFailure
  cases hs : b.state with
  | halfOpen => rfl
  | open_ => rfl
  | closed =>
    dsimp only
    split <;> rfl

theorem call_cfg (b : Breaker) (c : Call) : (b.call c).2.cfg = b.cfg := by
  cases c with
  | allow now =>
    rcases allow_cases b now with ⟨_, _, heq⟩ | ⟨_, _, heq⟩ | ⟨_, heq⟩ <;> simp [call, heq]
  | onSuccess => rfl
  | onFailure now =>
    simp only [call, onFailure]
    split
    · rfl
    · split <;> rfl
    · rfl

theorem Ready.call (h : b.Ready cfg) (c : Call) : (b.call c).2.Ready cfg := by
  constructor
  · rw [call_cfg, h.threshold]
  · rw [call_cfg, h.cooldown]

end Step

end Breaker

/-! ## Runs of failures -/

section FailureRun

variable {n : Nat} {calls : List Call} {c : Call}

theorem failureRun_zero (calls : List Call) : FailureRun 0 calls :=
  ⟨calls, [], by simp, by simp, by simp⟩

theorem failureRun_success : FailureRun n (calls ++ [Call.onSuccess]) ↔ n = 0 := by
  constructor
  · rintro ⟨before, run, heq, hno, hn⟩
    rcases eq_nil_or_concat run with rfl | ⟨run, d, rfl⟩
    · simpa using hn
    · rw [concat_eq_append, ← append_assoc] at heq
      obtain ⟨-, hd⟩ := append_inj' heq rfl
      rw [concat_eq_append, ← singleton_inj.mp hd] at hno
      exact absurd (mem_append_right _ (.head _)) hno
  · rintro rfl
    exact failureRun_zero _

/-- One more call that is no success adds itself to the run. -/
theorem failureRun_concat (hc : c ≠ .onSuccess) :
    FailureRun n (calls ++ [c]) ↔ FailureRun (n - [c].countP Call.isFailure) calls := by
  constructor
  · rintro ⟨before, run, heq, hno, hn⟩
    rcases eq_nil_or_concat run with rfl | ⟨run, d, rfl⟩
    · have hzero : n = 0 := by simpa using hn
      rw [hzero, Nat.zero_sub]
      exact failureRun_zero calls
    · rw [concat_eq_append] at heq hno hn
      rw [← append_assoc] at heq
      obtain ⟨rfl, hd⟩ := append_inj' heq rfl
      obtain rfl : c = d := singleton_inj.mp hd
      rw [countP_append] at hn
      exact ⟨before, run, rfl, fun h => hno (mem_append_left _ h), by omega⟩
  · rintro ⟨before, run, rfl, hno, hn⟩
    refine ⟨before, run ++ [c], append_assoc _ _ _, ?_, ?_⟩
    · rw [mem_append, mem_singleton]
      rintro (h | h)
      · exact hno h
      · exact hc h.symm
    · rw [countP_append]
      omega

end FailureRun

/-! ## What a breaker's state says of the calls before it -/

variable {cfg : BreakerConfig}

theorem breakerAfter_concat (calls : List Call) (c : Call) :
    breakerAfter cfg (calls ++ [c]) = ((breakerAfter cfg calls).call c).2 := after_concat _ _ _ _

/-- The breaker was opened at `t`, and no success has been reported since. -/
def OpenedBy (cfg : BreakerConfig) (calls : List Call) (t : Int64) : Prop :=
  ∃ before mid, calls = before ++ .onFailure t :: mid ∧ Opens cfg before (.onFailure t) ∧
    .onSuccess ∉ mid

/-- A probe was let through, and since then nothing but `allow` was called. -/
def Probing (cfg : BreakerConfig) (calls : List Call) : Prop :=
  ∃ before now asked, calls = before ++ .allow now :: asked ∧
    (breakerAfter cfg before).state = .open_ ∧
    (breakerAfter cfg before).cooledDown now = true ∧ ∀ c ∈ asked, ∃ now, c = .allow now

structure Describes (cfg : BreakerConfig) (calls : List Call) (b : Breaker) : Prop where
  ready : b.Ready cfg
  failures : ∀ n < 2 ^ 32, n ≤ b.consecutiveFailures.toNat ↔ FailureRun n calls
  openedBy : b.state = .open_ → OpenedBy cfg calls b.openedAt
  probing : b.state = .halfOpen → Probing cfg calls

theorem OpenedBy.concat {calls : List Call} {t : Int64} {c : Call} (h : OpenedBy cfg calls t)
    (hc : c ≠ .onSuccess) : OpenedBy cfg (calls ++ [c]) t := by
  obtain ⟨before, mid, rfl, hopen, hmid⟩ := h
  refine ⟨before, mid ++ [c], by simp, hopen, ?_⟩
  rw [mem_append, mem_singleton]
  rintro (h | h)
  · exact hmid h
  · exact hc h.symm

theorem describes_failures {calls : List Call} (h : Describes cfg calls (breakerAfter cfg calls))
    (c : Call) :
    ∀ n < 2 ^ 32, n ≤ ((breakerAfter cfg calls).call c).2.consecutiveFailures.toNat
      ↔ FailureRun n (calls ++ [c]) := by
  intro n hn
  cases c with
  | allow now =>
    have hsame : ((breakerAfter cfg calls).call (.allow now)).2.consecutiveFailures
        = (breakerAfter cfg calls).consecutiveFailures := by
      rcases (breakerAfter cfg calls).allow_cases now with ⟨_, _, heq⟩ | ⟨_, _, heq⟩ | ⟨_, heq⟩ <;>
        simp [Breaker.call, heq]
    rw [failureRun_concat (by simp), hsame]
    exact h.failures n hn
  | onSuccess =>
    rw [failureRun_success]
    exact Nat.le_zero
  | onFailure now =>
    have hsucc : ((breakerAfter cfg calls).call (.onFailure now)).2.consecutiveFailures.toNat
        = min ((breakerAfter cfg calls).consecutiveFailures.toNat + 1) (2 ^ 32 - 1) := by
      rw [← Breaker.saturatingSucc_toNat, ← Breaker.onFailure_failures _ now]
      rfl
    have hone : [Call.onFailure now].countP Call.isFailure = 1 := rfl
    rw [failureRun_concat (by simp), hsucc, hone, ← h.failures (n - 1) (by omega)]
    omega

theorem describes_openedBy {calls : List Call} (h : Describes cfg calls (breakerAfter cfg calls))
    (c : Call) (hopen : ((breakerAfter cfg calls).call c).2.state = .open_) :
    OpenedBy cfg (calls ++ [c]) ((breakerAfter cfg calls).call c).2.openedAt := by
  cases c with
  | allow now =>
    have hsame : (breakerAfter cfg calls).state = .open_ ∧ ((breakerAfter cfg calls).allow now).2
        = breakerAfter cfg calls := by
      simp only [Breaker.call] at hopen
      rcases (breakerAfter cfg calls).allow_cases now with ⟨_, _, heq⟩ | ⟨hs, _, heq⟩ | ⟨hs, heq⟩
      · rw [heq] at hopen
        cases hopen
      · exact ⟨hs, by rw [heq]⟩
      · rw [heq] at hopen
        exact absurd hopen hs
    rw [Breaker.call, hsame.2]
    exact (h.openedBy hsame.1).concat (by simp)
  | onSuccess => cases hopen
  | onFailure now =>
    rcases (breakerAfter cfg calls).onFailure_cases now with ⟨hs, hopened, hat⟩ | ⟨_, hsame, hat⟩
    · simp only [Breaker.call, hat]
      refine ⟨calls, [], rfl, ⟨?_, ?_⟩, by simp⟩
      · rcases hs with hs | ⟨hs, _⟩ <;> simp [hs]
      · rw [breakerAfter_concat]
        exact hopened
    · simp only [Breaker.call, hat] at hopen ⊢
      exact (h.openedBy (hsame ▸ hopen)).concat (by simp)

theorem describes_probing {calls : List Call} (h : Describes cfg calls (breakerAfter cfg calls))
    (c : Call)
    (hhalf : ((breakerAfter cfg calls).call c).2.state = .halfOpen) :
    Probing cfg (calls ++ [c]) := by
  cases c with
  | allow now =>
    simp only [Breaker.call] at hhalf
    rcases (breakerAfter cfg calls).allow_cases now with ⟨hs, hcool, _⟩ | ⟨hs, _, heq⟩ | ⟨_, heq⟩
    · exact ⟨calls, now, [], rfl, hs, hcool, by simp⟩
    · rw [heq, hs] at hhalf
      cases hhalf
    · rw [heq] at hhalf
      obtain ⟨before, now', asked, rfl, hs, hcool, hasked⟩ := h.probing hhalf
      refine ⟨before, now', asked ++ [Call.allow now], by simp, hs, hcool, ?_⟩
      intro c hc
      rcases mem_append.mp hc with hc | hc
      · exact hasked c hc
      · exact ⟨now, mem_singleton.mp hc⟩
  | onSuccess => cases hhalf
  | onFailure now =>
    simp only [Breaker.call] at hhalf
    rcases (breakerAfter cfg calls).onFailure_cases now with ⟨_, hopened, _⟩ | ⟨hs, hsame, _⟩
    · rw [hopened] at hhalf
      cases hhalf
    · rw [hsame] at hhalf
      rcases hs with hs | ⟨hs, _⟩ <;> rw [hs] at hhalf <;> cases hhalf

theorem describes (cfg : BreakerConfig) (calls : List Call) :
    Describes cfg calls (breakerAfter cfg calls) := by
  refine after_induction (Describes cfg) ⟨⟨rfl, rfl⟩, ?_, ?_, ?_⟩ ?_ calls
  · intro n _
    constructor
    · intro hn
      rw [Nat.le_zero.mp hn]
      exact failureRun_zero []
    · rintro ⟨before, run, heq, -, hn⟩
      rw [(append_eq_nil_iff.mp heq.symm).2] at hn
      exact hn
  · intro h
    cases h
  · intro h
    cases h
  · intro calls c ih
    exact ⟨ih.ready.call c, describes_failures ih c, describes_openedBy ih c,
      describes_probing ih c⟩

/-! ## The parts -/

/-- **A breaker opens for a reason.** -/
theorem opens_iff (cfg : BreakerConfig) (calls : List Call) (c : Call) :
    Opens cfg calls c ↔ c.isFailure = true ∧ ((breakerAfter cfg calls).state = .halfOpen ∨
      (breakerAfter cfg calls).state = .closed ∧
      FailureRun cfg.failureThreshold.toNat (calls ++ [c])) := by
  have hd := describes cfg calls
  unfold Opens
  rw [breakerAfter_concat]
  cases c with
  | allow now =>
    constructor
    · rintro ⟨hs, hopen⟩
      simp only [Breaker.call] at hopen
      rcases (breakerAfter cfg calls).allow_cases now with ⟨hs', _, _⟩ | ⟨hs', _, _⟩ | ⟨_, heq⟩
      · exact absurd hs' hs
      · exact absurd hs' hs
      · rw [heq] at hopen
        exact absurd hopen hs
    · rintro ⟨h, _⟩
      cases h
  | onSuccess =>
    constructor
    · rintro ⟨_, hopen⟩
      cases hopen
    · rintro ⟨h, _⟩
      cases h
  | onFailure now =>
    -- the limit is reached exactly by a run that is long enough
    have hrun : (breakerAfter cfg calls).cfg.failureThreshold
          ≤ Breaker.saturatingSucc (breakerAfter cfg calls).consecutiveFailures ↔
        FailureRun cfg.failureThreshold.toNat (calls ++ [Call.onFailure now]) := by
      have hmax : (max cfg.failureThreshold 1).toNat = max cfg.failureThreshold.toNat 1 := by
        rw [show max cfg.failureThreshold 1 = if cfg.failureThreshold ≤ 1 then 1
          else cfg.failureThreshold from rfl]
        split <;> rename_i hle <;> rw [UInt32.le_iff_toNat_le, UInt32.toNat_one] at hle
        · rw [UInt32.toNat_one]
          omega
        · omega
      have hlt := cfg.failureThreshold.toNat_lt
      have hone : [Call.onFailure now].countP Call.isFailure = 1 := rfl
      rw [hd.ready.threshold, UInt32.le_iff_toNat_le, hmax, Breaker.saturatingSucc_toNat,
        failureRun_concat (by simp), hone, ← hd.failures _ (by omega)]
      omega
    simp only [Breaker.call, Call.isFailure, true_and]
    rcases (breakerAfter cfg calls).onFailure_cases now with ⟨hs, hopened, _⟩ | ⟨hs, hsame, _⟩
    · rw [hopened]
      rcases hs with hs | ⟨hs, hle⟩
      · simp [hs]
      · simp [hs, hrun.mp hle]
    · rw [hsame]
      rcases hs with hs | ⟨hs, hle⟩
      · simp [hs]
      · have hno := mt hrun.mpr hle
        simp [hs, hno]

/-- An open breaker stays as it is until a success, or until `allow` is called with its cooldown
over. -/
theorem held {b : Breaker} (hready : b.Ready cfg) (hopen : b.state = .open_) {mid : List Call}
    (hmid : .onSuccess ∉ mid) :
    ((after Breaker.call b mid).state = .open_ ∧ (after Breaker.call b mid).openedAt = b.openedAt) ∨
      ∃ now, .allow now ∈ mid ∧ b.openedAt.toInt + cfg.cooldownMs.toInt ≤ now.toInt := by
  induction mid generalizing b with
  | nil => exact .inl ⟨hopen, rfl⟩
  | cons c mid ih =>
    rw [after_cons]
    have hrest : .onSuccess ∉ mid := fun h => hmid (.tail _ h)
    cases c with
    | allow now =>
      rcases b.allow_cases now with ⟨_, hcool, _⟩ | ⟨_, _, heq⟩ | ⟨hs, _⟩
      · have hle := hready.cooledDown_iff.mp hcool
        exact .inr ⟨now, .head _, by omega⟩
      · have hsame : (b.call (.allow now)).2 = b := by rw [Breaker.call, heq]
        rw [hsame]
        rcases ih hready hopen hrest with h | ⟨now', hmem, hle⟩
        · exact .inl h
        · exact .inr ⟨now', .tail _ hmem, hle⟩
      · exact absurd hopen hs
    | onSuccess => exact absurd (.head _) hmid
    | onFailure now =>
      have hsame : (b.onFailure now).state = .open_ ∧ (b.onFailure now).openedAt = b.openedAt := by
        rcases b.onFailure_cases now with ⟨hs, _, _⟩ | ⟨_, hs, hat⟩
        · rw [hopen] at hs
          rcases hs with hs | ⟨hs, _⟩ <;> cases hs
        · exact ⟨hs.trans hopen, hat⟩
      rcases ih (hready.call (.onFailure now)) hsame.1 hrest with h | ⟨now', hmem, hle⟩
      · exact .inl ⟨h.1, h.2.trans hsame.2⟩
      · exact .inr ⟨now', .tail _ hmem, hsame.2 ▸ hle⟩

/-- Only a success closes a breaker. -/
theorem not_closed {b : Breaker} (hb : b.state ≠ .closed) {mid : List Call}
    (hmid : .onSuccess ∉ mid) : (after Breaker.call b mid).state ≠ .closed := by
  induction mid generalizing b with
  | nil => exact hb
  | cons c mid ih =>
    rw [after_cons]
    refine ih ?_ fun h => hmid (.tail _ h)
    cases c with
    | allow now =>
      rcases b.allow_cases now with ⟨_, _, heq⟩ | ⟨_, _, heq⟩
        | ⟨_, heq⟩ <;> simp [Breaker.call, heq, hb]
    | onSuccess => exact absurd (.head _) hmid
    | onFailure now =>
      rcases b.onFailure_cases now with ⟨_, hs, _⟩ | ⟨_, hs, _⟩ <;> simp [Breaker.call, hs, hb]

/-- Unless it is asked while half open, a breaker that is not closed lets one call through. -/
theorem count_probes {b : Breaker} (hb : b.state ≠ .closed) {probes : List Call}
    (hprobes : ∀ c ∈ probes, ∃ now, c = .allow now)
    (hasked : ∀ before c rest, probes = before ++ c :: rest →
      (after Breaker.call b before).state ≠ .halfOpen) :
    (answers Breaker.call b probes).count (some true) ≤ 1 := by
  induction probes generalizing b with
  | nil => simp
  | cons c probes ih =>
    obtain ⟨now, rfl⟩ := hprobes c (.head _)
    have hnow := hasked [] _ _ rfl
    rw [answers_cons]
    rcases b.allow_cases now with ⟨_, _, heq⟩ | ⟨_, _, heq⟩ | ⟨hs, _⟩
    · -- the breaker is half open now, so nothing more is asked
      cases probes with
      | nil => simp [Breaker.call, heq]
      | cons d probes =>
        refine absurd ?_ (hasked [.allow now] d probes rfl)
        simp [Breaker.call, heq]
    · have hsame : b.call (.allow now) = (some false, b) := by rw [Breaker.call, heq]
      rw [hsame, count_cons_of_ne (by simp)]
      refine ih hb (fun d hd => hprobes d (.tail _ hd)) ?_
      intro before d rest heq'
      have hafter := hasked (.allow now :: before) d rest (by rw [heq', cons_append])
      rwa [after_cons, hsame] at hafter
    · cases hstate : b.state with
      | closed => exact absurd hstate hb
      | open_ => exact absurd hstate hs
      | halfOpen => exact absurd hstate hnow

/-! ## Whole histories -/

theorem Clocked.le {before rest : List Call} {c d : Call} {s t : Int64}
    (h : Clocked (before ++ c :: rest))
    (hd : d ∈ rest) (hs : c.now = some s) (ht : d.now = some t) : s.toInt ≤ t.toInt := by
  unfold Clocked at h
  rw [filterMap_append, pairwise_append, filterMap_cons_some hs, pairwise_cons] at h
  exact h.2.1.1 t (mem_filterMap.mpr ⟨d, hd, ht⟩)

theorem breakerAfter_opened (before : List Call) (t : Int64) (mid : List Call) :
    breakerAfter cfg (before ++ .onFailure t :: mid)
      = after Breaker.call (breakerAfter cfg (before ++ [Call.onFailure t])) mid := by
  rw [breakerAfter, breakerAfter, ← after_append, append_assoc, singleton_append]

theorem Opens.openedAt {before : List Call} {t : Int64} (h : Opens cfg before (.onFailure t)) :
    (breakerAfter cfg (before ++ [Call.onFailure t])).openedAt = t := by
  obtain ⟨hs, hopen⟩ := h
  rw [breakerAfter_concat] at hopen ⊢
  rcases (breakerAfter cfg before).onFailure_cases t with ⟨_, _, hat⟩ | ⟨_, hsame, _⟩
  · exact hat
  · exact absurd (hsame.symm.trans hopen) hs

/-- **An open breaker refuses** until its cooldown is over. -/
theorem fenced_of_clocked {before mid rest : List Call} {t now : Int64}
    (hclock : Clocked (before ++ .onFailure t :: mid ++ .allow now :: rest))
    (hopens : Opens cfg before (.onFailure t))
    (hmid : .onSuccess ∉ mid) (hnow : now.toInt < t.toInt + cfg.cooldownMs.toInt) :
    ((breakerAfter cfg (before ++ .onFailure t :: mid)).allow now).1 = false := by
  have hready := (describes cfg (before ++ [Call.onFailure t])).ready
  have hready' := (describes cfg (before ++ .onFailure t :: mid)).ready
  have hheld := held hready hopens.2 hmid
  rw [hopens.openedAt, ← breakerAfter_opened] at hheld
  rcases hheld with ⟨hs, hat⟩ | ⟨now', hmem, hle⟩
  · rcases (breakerAfter cfg (before ++ .onFailure t :: mid)).allow_cases now with ⟨_, hcool, _⟩
      | ⟨_, _, heq⟩ | ⟨hs', _⟩
    · rw [hready'.cooledDown_iff, hat] at hcool
      omega
    · rw [heq]
    · exact absurd hs hs'
  · obtain ⟨before', rest', rfl⟩ := append_of_mem hmem
    have hsplit : Clocked ((before ++ .onFailure t :: before') ++ .allow now' ::
      (rest' ++ .allow now :: rest)) := by
      simpa using hclock
    have hlast : now'.toInt ≤ now.toInt := hsplit.le (d := .allow now) (by simp) rfl rfl
    omega

/-- A breaker that is asked while half open has let a probe through already, and lets this one
through, too. -/
theorem not_probesOnce {before rest : List Call} {now : Int64}
    (hclock : Clocked (before ++ .allow now :: rest))
    (hhalf : (breakerAfter cfg before).state = .halfOpen) :
    ¬ FencesAndProbesOnce cfg (before ++ .allow now :: rest) := by
  intro h
  obtain ⟨asked, first, probes, rfl, hopen, hcool, hprobes⟩ := (describes cfg before).probing hhalf
  have hd := describes cfg asked
  have hfirst := hd.ready.cooledDown_iff.mp hcool
  obtain ⟨opened, mid, hasked, hopens, hmid⟩ := hd.openedBy hopen
  have hlate : ∀ c ∈ probes ++ [Call.allow now], ∃ later, c = .allow later ∧
    first.toInt ≤ later.toInt := by
    intro c hc
    have hallow : ∃ later, c = .allow later := by
      rcases mem_append.mp hc with hc | hc
      · exact hprobes c hc
      · exact ⟨now, mem_singleton.mp hc⟩
    obtain ⟨later, rfl⟩ := hallow
    have hsplit : Clocked (asked ++ .allow first :: (probes ++ [Call.allow now] ++ rest)) := by
      simpa using hclock
    exact ⟨later, rfl, hsplit.le (mem_append_left rest hc) rfl rfl⟩
  have honce := h.probesOnce opened _ mid (.allow first :: (probes ++ [Call.allow now])) rest
    (by rw [← hasked]; simp) hopens hmid (by
      intro c hc
      rcases mem_cons.mp hc with rfl | hc
      · exact ⟨first, rfl, by omega⟩
      · obtain ⟨later, rfl, hle⟩ := hlate c hc
        exact ⟨later, rfl, by omega⟩)
  rw [← hasked, ← cons_append, answers_append, answers_cons, cons_append] at honce
  have htrue : ((breakerAfter cfg asked).call (.allow first)).1 = some true := by
    rw [Breaker.call, Breaker.allow, hopen, hcool]
    rfl
  have hagain : answers Breaker.call (after Breaker.call (breakerAfter cfg asked)
    (.allow first :: probes)) [.allow now] = [some true] := by
    rw [breakerAfter, after_append] at hhalf
    rw [answers_cons, answers_nil, Breaker.call, Breaker.allow, breakerAfter, hhalf]
  rw [htrue, hagain, count_cons_self, count_append, count_singleton_self] at honce
  omega

/-- **A breaker fences and probes once exactly when nothing is asked of it while it is half
open.** -/
theorem fences_and_probes_once_iff (cfg : BreakerConfig) {calls : List Call}
    (hclock : Clocked calls) :
    FencesAndProbesOnce cfg calls ↔
      ∀ before now rest, calls = before ++ .allow now :: rest →
      (breakerAfter cfg before).state ≠ .halfOpen := by
  constructor
  · rintro h before now rest rfl hhalf
    exact not_probesOnce hclock hhalf h
  · intro hasked
    refine ⟨fun before c rest _ => opens_iff cfg before c, ?_, ?_⟩
    · rintro before t mid now rest rfl hopens hmid hnow
      exact fenced_of_clocked hclock hopens hmid hnow
    · rintro before t mid probes rest rfl hopens hmid hprobes
      have hopened : (breakerAfter cfg (before ++ [Call.onFailure t])).state ≠ .closed := by
        rw [hopens.2]
        simp
      have hnot := not_closed hopened hmid
      rw [← breakerAfter_opened] at hnot
      refine count_probes hnot (fun c hc => (hprobes c hc).imp fun _ h => h.1) ?_
      rintro asked c later rfl
      obtain ⟨now, rfl, _⟩ := hprobes c (by simp)
      have hthen := hasked (before ++ .onFailure t :: mid ++ asked) now (later ++ rest) (by simp)
      rwa [breakerAfter, after_append] at hthen

/-- A breaker that is asked once after its cooldown, and again after the probe has come back. -/
theorem fences_and_probes_once_probe :
    FencesAndProbesOnce ⟨1, 1000⟩ [.onFailure 0, .allow 500, .allow 1000, .onSuccess,
      .allow 1001] := by
  refine (fences_and_probes_once_iff ⟨1, 1000⟩ (by unfold Clocked; decide)).mpr ?_
  intro before now rest h
  have htake : before = List.take before.length [.onFailure 0, .allow 500, .allow 1000, .onSuccess,
    .allow 1001] := by
    rw [h, take_left]
  have hat : [.onFailure 0, .allow 500, .allow 1000, .onSuccess, .allow 1001][before.length]? =
    some (Call.allow now) := by
    rw [h, List.getElem?_append_right le_rfl, Nat.sub_self, List.getElem?_cons_zero]
  obtain ⟨hlen, -⟩ := List.getElem?_eq_some_iff.mp hat
  have hprobe : before.length ≠ 3 := by
    intro hthree
    rw [hthree] at hat
    cases hat
  have hstates : ∀ k < 5, k ≠ 3 → (breakerAfter ⟨1, 1000⟩
      (List.take k [.onFailure 0, .allow 500, .allow 1000, .onSuccess, .allow 1001])).state ≠
        .halfOpen := by decide
  rw [htake]
  exact hstates _ hlen hprobe

/-- Two calls after the cooldown are both let through. -/
theorem probed_twice : Clocked [.onFailure 0, .allow 1000, .allow 1001] ∧
    ¬ FencesAndProbesOnce ⟨1, 1000⟩ [.onFailure 0, .allow 1000, .allow 1001] := by
  refine ⟨by unfold Clocked; decide, fun h => ?_⟩
  have honce :=
    h.probesOnce [] 0 [] [.allow 1000, .allow 1001] [] rfl (by unfold Opens; decide) (by simp) (by
    intro c hc
    simp only [mem_cons, not_mem_nil, or_false] at hc
    rcases hc with rfl | rfl
    · exact ⟨1000, rfl, by decide⟩
    · exact ⟨1001, rfl, by decide⟩)
  exact absurd honce (by decide)

end Thegn.Mcp
