import Thegn.Lib.Run
import Thegn.Lib.Text

set_option autoImplicit false

/-! # The mouse residue filter

`thegn-host/src/mousefilter.rs`: a mouse report that is split across terminal reads arrives as key
events, `Alt+[` first. The filter swallows such a report. It also puts together the keys `CSI
n[;m]~` that are split in the same way, or replays what it has buffered of them.
-/

namespace Thegn.Terminal

open Transducer Text
open List hiding after

/-! ## Keys -/

/-- The keys the filter tells apart; all others are of one kind. -/
inductive KeyCode
  | char (c : Char)
  | home
  | insert
  | delete
  | end_
  | pageUp
  | pageDown
  | other (code : Nat)
  deriving DecidableEq

/-- A set of modifiers, as flags. -/
abbrev Modifiers := BitVec 16

namespace Modifiers

def none : Modifiers := 0
def shift : Modifiers := 1 <<< 1
def alt : Modifiers := 1 <<< 2
def ctrl : Modifiers := 1 <<< 3
def super : Modifiers := 1 <<< 4

end Modifiers

structure KeyEvent where
  key : KeyCode
  modifiers : Modifiers
  deriving DecidableEq

/-- The character of a key without modifiers. -/
def KeyEvent.plainChar (e : KeyEvent) : Option Char :=
  match e.key with
  | .char c => if e.modifiers = .none then some c else .none
  | _ => .none

def KeyEvent.plain (c : Char) : KeyEvent := ⟨.char c, .none⟩

/-! ## The filter -/

def csiKeyBufferLimit : Nat := 8

inductive State
  | idle
  | sawCsi
  | inMouse
  | inKeyCsi (buffer : List KeyEvent)
  deriving DecidableEq

inductive Verdict
  | pass
  | swallow
  | emit (event : KeyEvent)
  | replay (keys : List KeyEvent)
  deriving DecidableEq

/-- The key that `CSI n ~` names. -/
def tildeKey (number : Nat) : Option KeyCode :=
  match number with
  | 1 | 7 => some .home
  | 2 => some .insert
  | 3 => some .delete
  | 4 | 8 => some .end_
  | 5 => some .pageUp
  | 6 => some .pageDown
  | _ => none

/-- The modifiers of `CSI n ; m ~`, none of them for a number out of range. -/
def tildeModifiers (modifier : Nat) : Option Modifiers :=
  if 1 ≤ modifier ∧ modifier ≤ 16 then
    let bits := modifier - 1
    some ((if bits.testBit 0 then Modifiers.shift else .none) |||
      (if bits.testBit 1 then Modifiers.alt else .none)
      ||| (if bits.testBit 2 then Modifiers.ctrl else .none) |||
        (if bits.testBit 3 then Modifiers.super else .none))
  else none

def parseTildeKey (buffer : List KeyEvent) : Option KeyEvent := do
  let text ← buffer.mapM KeyEvent.plainChar
  let (number, param) ← match text.splitOn ';' with
    | [n] => some (n, none)
    | [n, m] => some (n, some m)
    | _ => none
  let number ← parseUnsigned 256 number
  let modifier ← match param with
    | none => some 1
    | some m => parseUnsigned 256 m
  let code ← tildeKey number
  let modifiers ← tildeModifiers modifier
  return ⟨code, modifiers⟩

/-- The keys of the numbers of a report or a key. -/
def isParam (c : Char) : Bool := c.isDigit || c == ';'

def feedKeyCsi (buffer : List KeyEvent) (e : KeyEvent) : Verdict × State :=
  if e.plainChar.any isParam then
    if buffer.length < csiKeyBufferLimit then (.swallow, .inKeyCsi (buffer ++ [e]))
    else (.replay (buffer ++ [e]), .idle)
  else
    match (if e = .plain '~' then parseTildeKey buffer else none) with
    | some event => (.emit event, .idle)
    | none => (.replay (buffer ++ [e]), .idle)

def feed (s : State) (e : KeyEvent) : Verdict × State :=
  match s with
  | .idle => if e.key = .char '[' ∧ e.modifiers = .alt then (.swallow, .sawCsi) else (.pass, .idle)
  | .sawCsi =>
    match e.plainChar with
    | some c =>
      if c = '<' then (.swallow, .inMouse)
      else if c.isDigit then (.swallow, .inKeyCsi [e])
      else (.pass, .idle)
    | none => (.pass, .idle)
  | .inMouse =>
    match e.plainChar with
    | some c =>
      if isParam c then (.swallow, .inMouse)
      else if c = 'M' ∨ c = 'm' then (.swallow, .idle)
      else (.pass, .idle)
    | none => (.pass, .idle)
  | .inKeyCsi buffer => feedKeyCsi buffer e

/-! ## Reports -/

/-- `Alt+[`. -/
def introducer : KeyEvent := ⟨.char '[', .alt⟩

/-- The keys of a complete report that was split. -/
def IsReport (keys : List KeyEvent) : Prop :=
  ∃ (params : Text) (final : Char), (∀ c ∈ params, isParam c = true) ∧ (final = 'M' ∨ final = 'm') ∧
    keys = introducer :: .plain '<' :: (params.map .plain ++ [.plain final])

/-- From `s`, the filter swallows all the keys and is idle afterwards. -/
def Swallows (s : State) (keys : List KeyEvent) : Prop :=
  (∀ v ∈ answers feed s keys, v = .swallow) ∧ after feed s keys = .idle

@[simp] theorem plainChar_plain (c : Char) : (KeyEvent.plain c).plainChar = some c := rfl

theorem plainChar_introducer : introducer.plainChar = none := by decide

theorem feed_params {params : Text} (h : ∀ c ∈ params, isParam c = true) :
    after feed .inMouse (params.map .plain) = .inMouse ∧
      ∀ v ∈ answers feed .inMouse (params.map .plain), v = .swallow := by
  induction params with
  | nil => simp
  | cons c params ih =>
    have hstep : feed .inMouse (.plain c) = (.swallow, .inMouse) := by
      simp [feed, h c mem_cons_self]
    obtain ⟨hstate, hall⟩ := ih fun d hd => h d (.tail _ hd)
    simp only [map_cons, after_cons, answers_cons, hstep]
    exact ⟨hstate, by simpa using hall⟩

/-- A report that begins in an idle filter is swallowed. -/
theorem swallows_idle {keys : List KeyEvent} (h : IsReport keys) : Swallows .idle keys := by
  obtain ⟨params, final, hparams, hfinal, rfl⟩ := h
  obtain ⟨hstate, hall⟩ := feed_params hparams
  have hlast : feed .inMouse (.plain final) = (.swallow, .idle) := by
    rcases hfinal with rfl | rfl <;> rfl
  have hintro : feed .idle introducer = (.swallow, .sawCsi) := by decide
  have hopen : feed .sawCsi (.plain '<') = (.swallow, .inMouse) := by decide
  constructor
  · simp only [answers_cons, answers_append, answers_nil, hintro, hopen, hstate, hlast]
    intro v hv
    simp only [mem_cons, mem_append, not_mem_nil, or_false] at hv
    rcases hv with rfl | rfl | hv | rfl
    · rfl
    · rfl
    · exact hall v hv
    · rfl
  · simp only [after_cons, after_append, after_nil, hintro, hopen, hstate, hlast]

/-- In any other state its first key is passed or replayed. -/
theorem feed_introducer {s : State} (h : s ≠ .idle) : (feed s introducer).1 ≠ .swallow := by
  cases s with
  | idle => exact absurd rfl h
  | sawCsi => decide
  | inMouse => decide
  | inKeyCsi buffer =>
    have hother : introducer ≠ .plain '~' := by decide
    simp [feed, feedKeyCsi, plainChar_introducer, hother]

/-- Without `Alt+[` an idle filter passes everything. -/
theorem answers_idle {keys : List KeyEvent} (h : introducer ∉ keys) :
    answers feed .idle keys = List.replicate keys.length .pass := by
  induction keys with
  | nil => rfl
  | cons e keys ih =>
    have hstep : feed .idle e = (.pass, .idle) := by
      rw [feed, if_neg]
      rintro ⟨hkey, hmods⟩
      refine h ?_
      rw [show e = introducer by cases e; simp_all [introducer]]
      exact .head _
    rw [answers_cons, hstep, ih fun hmem => h (mem_cons_of_mem _ hmem), length_cons, replicate_succ]

/-- **A split report is swallowed exactly when the filter is idle as it begins**; keys without
`Alt+[` are passed by an idle filter. -/
theorem report_swallowed_iff (before report keys : List KeyEvent) (hreport : IsReport report) :
    (Swallows (after feed .idle before) report ↔ after feed .idle before = .idle) ∧
      (introducer ∉ keys → ∀ v ∈ answers feed .idle keys, v = .pass) := by
  constructor
  · constructor
    · intro h
      by_contra hbusy
      obtain ⟨params, final, _, _, rfl⟩ := hreport
      exact feed_introducer hbusy (h.1 _ (.head _))
    · intro hidle
      rw [hidle]
      exact swallows_idle hreport
  · intro h v hv
    rw [answers_idle h] at hv
    exact eq_of_mem_replicate hv

/-- The keys of `Alt+[ < 3 2 ; 5 M`. -/
def dragReport : List KeyEvent := introducer :: ['<', '3', '2', ';', '5', 'M'].map .plain

theorem isReport_dragReport : IsReport dragReport :=
  ⟨['3', '2', ';', '5'], 'M', by simp [isParam], .inl rfl, rfl⟩

/-- Typing, and an `Alt+[` that begins no report. -/
def typed : List KeyEvent := [.plain 'l', introducer, .plain 's']

theorem report_swallowed_typed :
    Swallows (after feed .idle typed) dragReport ∧
      ∀ v ∈ answers feed .idle [KeyEvent.plain 'l', .plain 's'], v = .pass :=
  have h := report_swallowed_iff typed dragReport [.plain 'l', .plain 's'] isReport_dragReport
  ⟨h.1.mpr (by decide), h.2 (by decide)⟩

/-- A report that interrupts another one, after `Alt+[ < 3 2`: all its keys reach the shell. -/
theorem interrupted_report_passes :
    answers feed .idle ((introducer :: ['<', '3', '2'].map .plain) ++ dragReport)
      = List.replicate 4 .swallow ++ List.replicate 7 .pass ∧
    ¬ Swallows (after feed .idle (introducer :: ['<', '3', '2'].map .plain)) dragReport := by
  refine ⟨by decide, fun h => ?_⟩
  exact absurd (h.1 .pass (by decide)) (by decide)

end Thegn.Terminal
