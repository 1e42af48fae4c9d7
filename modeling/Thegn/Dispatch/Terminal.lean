import Thegn.Lib.JsonTokens
import Thegn.Resume.Sanitize

set_option autoImplicit false

/-! # Documents on a terminal

`json_terminal_safe` of `thegn-core/src/pipeline_report.rs`, which a JSON document goes through
before it is written to a terminal: characters that the terminal would act on become `\u` escapes.
It does not follow where string literals begin and end; a compact document has such characters in
its literals only, so what it stands for stays (`jsonTerminalSafe_compact`).
-/

namespace Thegn.Dispatch

open Text Json List

/-! ## The rewriting -/

/-- What `json_terminal_safe` replaces. -/
def terminalSensitive (c : Char) : Bool := isControl c || Resume.isFormatControl c

/-- `char::encode_utf16`. -/
def encodeUtf16 (c : Char) : List Nat :=
  if c.toNat < 0x10000 then [c.toNat]
  else [0xd800 + (c.toNat - 0x10000) / 0x400, 0xdc00 + (c.toNat - 0x10000) % 0x400]

def hexNibble (nibble : Nat) : Char :=
  if nibble ≤ 9 then Char.ofNat ('0'.toNat + nibble) else Char.ofNat ('a'.toNat + nibble - 10)

/-- One code unit after `\u`. -/
def escapeUnit (unit : Nat) : Text :=
  '\\' :: 'u' :: [12, 8, 4, 0].map fun shift => hexNibble ((unit >>> shift) &&& 0x0f)

/-- The loop: what is written so far, if anything was replaced, and what is not copied yet. -/
structure Escaping where
  output : Option Text
  pending : Text

def Escaping.next (e : Escaping) (c : Char) : Escaping :=
  if terminalSensitive c then
    ⟨some (e.output.getD [] ++ e.pending ++ (encodeUtf16 c).flatMap escapeUnit), []⟩
  else ⟨e.output, e.pending ++ [c]⟩

def jsonTerminalSafe (json : Text) : Text :=
  let e := json.foldl Escaping.next ⟨none, []⟩
  match e.output with
  | some escaped => escaped ++ e.pending
  | none => json

/-! ## Character by character -/

def safeChar (c : Char) : Text :=
  if terminalSensitive c then (encodeUtf16 c).flatMap escapeUnit else [c]

/-- After each step the text written and the text pending are the rewriting of what was read. -/
theorem foldl_next (json : Text) : ∀ e : Escaping,
    (json.foldl Escaping.next e).output.getD [] ++ (json.foldl Escaping.next e).pending =
      e.output.getD [] ++ e.pending ++ json.flatMap safeChar := by
  induction json with
  | nil => simp
  | cons c json ih =>
    intro e
    rw [foldl_cons, ih, List.flatMap_cons, Escaping.next, safeChar]
    split_ifs <;> simp

/-- Nothing is written before something is replaced. -/
theorem output_eq_none (json : Text) : ∀ e : Escaping, (json.foldl Escaping.next e).output = none →
    e.output = none ∧ json.flatMap safeChar = json := by
  induction json with
  | nil => exact fun e h => ⟨h, rfl⟩
  | cons c json ih =>
    intro e h
    obtain ⟨hnone, hjson⟩ := ih _ h
    rw [Escaping.next] at hnone
    rw [List.flatMap_cons, hjson, safeChar]
    split_ifs at hnone ⊢
    exact ⟨hnone, rfl⟩

theorem jsonTerminalSafe_eq (json : Text) : jsonTerminalSafe json = json.flatMap safeChar := by
  have hfold := foldl_next json ⟨none, []⟩
  have hnone := output_eq_none json ⟨none, []⟩
  unfold jsonTerminalSafe
  dsimp only
  cases h : (json.foldl Escaping.next ⟨none, []⟩).output with
  | none => exact (hnone h).2.symm
  | some escaped =>
    rw [h] at hfold
    exact hfold

/-! ## The escapes are read back -/

theorem hexValue_hexNibble : ∀ n < 16, hexValue (hexNibble n) = some n := by decide

theorem terminalSensitive_of_printable {c : Char} (h : Printable c) :
    terminalSensitive c = false := by
  obtain ⟨hge, hlt⟩ := h
  simp only [terminalSensitive, isControl, Resume.isFormatControl, Bool.or_eq_false_iff,
    Bool.and_eq_false_iff, decide_eq_false_iff_not, beq_eq_false_iff_ne]
  omega

theorem nibble_eq (n : Nat) : n &&& 0x0f = n % 16 := Nat.and_two_pow_sub_one_eq_mod n 4

theorem hexValue_nibble (n : Nat) : hexValue (hexNibble (n &&& 0x0f)) = some (n % 16) := by
  rw [nibble_eq]
  exact hexValue_hexNibble _ (Nat.mod_lt _ (by decide))

/-- The four digits of a code unit are read as the unit. -/
theorem takeHex_escapeUnit {unit : Nat} (h : unit < 0x10000) (rest : Text) :
    ∃ hex, escapeUnit unit ++ rest = '\\' :: 'u' :: hex ∧ takeHex hex = some (unit, rest) := by
  refine ⟨([12, 8, 4, 0].map fun shift => hexNibble ((unit >>> shift) &&& 0x0f)) ++ rest, rfl, ?_⟩
  have hdigits : ((unit / 2 ^ 12 % 16 * 16 + unit / 2 ^ 8 % 16) * 16 + unit / 2 ^ 4 % 16) * 16 +
    unit / 2 ^ 0 % 16 = unit := by omega
  simp only [map_cons, map_nil, cons_append, nil_append, takeHex, hexValue_nibble,
    Option.bind_eq_bind, Option.bind_some, Nat.shiftRight_eq_div_pow, hdigits]

theorem isValidChar_toNat (c : Char) : c.toNat < 0xd800 ∨ 0xdfff < c.toNat ∧
    c.toNat < 0x110000 := c.valid

theorem parseChar_unit {t : Text} : parseChar ('\\' :: 'u' :: t) = parseUnit t := rfl

/-- The escapes of a character, two for one outside the basic plane, are read as the character. -/
theorem parseChar_escape (c : Char) (rest : Text) :
    parseChar ((encodeUtf16 c).flatMap escapeUnit ++ rest) = some (c, rest) := by
  have hvalid := isValidChar_toNat c
  unfold encodeUtf16
  split_ifs with hbasic
  · rw [flatMap_singleton]
    obtain ⟨hex, heq, hhex⟩ := takeHex_escapeUnit hbasic rest
    have hhigh : ¬ (0xd800 ≤ c.toNat ∧ c.toNat < 0xdc00) := by omega
    have hlow : ¬ (0xdc00 ≤ c.toNat ∧ c.toNat < 0xe000) := by omega
    rw [heq, parseChar_unit, parseUnit_basic hhex hhigh hlow, Char.ofNat_toNat]
  · rw [List.flatMap_cons, flatMap_singleton, append_assoc]
    obtain ⟨low, heq, hlow⟩ :=
      takeHex_escapeUnit (show 0xdc00 + (c.toNat - 0x10000) % 0x400 < 0x10000 by omega) rest
    obtain ⟨high, heq', hhigh⟩ := takeHex_escapeUnit
      (show 0xd800 + (c.toNat - 0x10000) / 0x400 < 0x10000 by omega) ('\\' :: 'u' :: low)
    have hhighUnit : 0xd800 ≤ 0xd800 + (c.toNat - 0x10000) / 0x400 ∧
        0xd800 + (c.toNat - 0x10000) / 0x400 < 0xdc00 := by omega
    have hlowUnit : 0xdc00 ≤ 0xdc00 + (c.toNat - 0x10000) % 0x400 ∧
        0xdc00 + (c.toNat - 0x10000) % 0x400 < 0xe000 := by omega
    have hvalue : 0x10000 + (0xd800 + (c.toNat - 0x10000) / 0x400 - 0xd800) * 0x400 +
        (0xdc00 + (c.toNat - 0x10000) % 0x400 - 0xdc00) = c.toNat := by omega
    rw [heq, heq', parseChar_unit, parseUnit_pair hhigh hlow hhighUnit hlowUnit, hvalue,
      Char.ofNat_toNat]

theorem escape_opens (c : Char) : ∃ r, (encodeUtf16 c).flatMap escapeUnit = '\\' :: r := by
  unfold encodeUtf16
  split_ifs
  · exact ⟨_, rfl⟩
  · exact ⟨_, rfl⟩

theorem rewriting_safeChar : Rewriting safeChar where
  keeps := by
    intro c hc
    rw [safeChar, terminalSensitive_of_printable hc]
    rfl
  reads := by
    intro c rest hge hslash
    rw [safeChar]
    split_ifs with hc
    · exact parseChar_escape c rest
    · rw [singleton_append]
      unfold parseChar
      split
      · rename_i heq
        cases heq
      · rename_i heq
        exact absurd (List.cons.inj heq).1 hslash
      · rename_i heq
        exact absurd (List.cons.inj heq).1 hslash
      · rename_i heq
        cases heq
        rw [if_neg]
        rintro (hlt | heq)
        · omega
        · exact hslash heq
  opens := by
    intro c hquote
    rw [safeChar]
    split_ifs with hc
    · obtain ⟨r, hr⟩ := escape_opens c
      exact ⟨'\\', r, hr, by decide⟩
    · exact ⟨c, [], rfl, hquote⟩

theorem printable_hexNibble : ∀ n < 16, Printable (hexNibble n) := by decide

theorem printable_escape {c d : Char} (hd : d ∈ (encodeUtf16 c).flatMap escapeUnit) :
    Printable d := by
  obtain ⟨unit, -, hunit⟩ := mem_flatMap.mp hd
  rw [escapeUnit, mem_cons, mem_cons, mem_map] at hunit
  rcases hunit with rfl | rfl | ⟨shift, -, rfl⟩
  · decide
  · decide
  · exact by rw [nibble_eq]; exact printable_hexNibble _ (Nat.mod_lt _ (by decide))

/-! ## Compact documents -/

/-- A text of closed literals, with no control below U+0020 in them and no character outside them
that a terminal acts on. -/
def Compact (json : Text) : Prop :=
  ∃ toks, tokens json = some toks ∧ ∀ c, .sym c ∈ toks → terminalSensitive c = false

theorem jsonTerminalSafe_insensitive (json : Text) : ∀ c ∈ jsonTerminalSafe json,
    terminalSensitive c = false := by
  intro c hc
  rw [jsonTerminalSafe_eq] at hc
  obtain ⟨d, -, hd⟩ := mem_flatMap.mp hc
  rw [safeChar] at hd
  split_ifs at hd with hsensitive
  · exact terminalSensitive_of_printable (printable_escape hd)
  · rw [mem_singleton] at hd
    rw [hd]
    exact Bool.eq_false_iff.mpr hsensitive

/-- The literals and the rest of a compact document stay. -/
theorem tokens_jsonTerminalSafe {json : Text} {toks : List Token} (h : tokens json = some toks)
    (hsym : ∀ c, .sym c ∈ toks → terminalSensitive c = false) :
    tokens (jsonTerminalSafe json) = some toks := by
  rw [jsonTerminalSafe_eq]
  refine tokens_flatMap rewriting_safeChar h fun c hc => ?_
  rw [safeChar, hsym c hc]
  rfl

/-- **Terminal-safe JSON is the same JSON.** -/
theorem jsonTerminalSafe_compact {json : Text} (h : Compact json) :
    (∀ c ∈ jsonTerminalSafe json, isControl c = false ∧ Resume.isFormatControl c = false) ∧
      parseText (jsonTerminalSafe json) = parseText json := by
  refine ⟨fun c hc => Bool.or_eq_false_iff.mp (jsonTerminalSafe_insensitive json c hc), ?_⟩
  obtain ⟨toks, htoks, hsym⟩ := h
  rw [parseText, parseText, htoks, tokens_jsonTerminalSafe htoks hsym]

/-- A number and a string that turns the direction of the text. -/
def overriding : Text :=
  ['{', '"', 's', '"', ':', '[', '1', '.', '5', ',', '"', '\u202e', '"', ']', '}']

theorem jsonTerminalSafe_compact_overriding :
    (∀ c ∈ jsonTerminalSafe overriding, isControl c = false ∧ Resume.isFormatControl c = false) ∧
      parseText (jsonTerminalSafe overriding) =
        some (.obj [(['s'], .arr [.number ['1', '.', '5'], .str ['\u202e']])]) := by
  have hcompact : Compact overriding :=
    ⟨[.sym '{', .str ['s'], .sym ':', .sym '[', .sym '1', .sym '.', .sym '5', .sym ',',
      .str ['\u202e'], .sym ']',
      .sym '}'], by decide, by simp [terminalSensitive, isControl, Resume.isFormatControl]⟩
  obtain ⟨hsafe, hsame⟩ := jsonTerminalSafe_compact hcompact
  exact ⟨hsafe, hsame.trans rfl⟩

example : jsonTerminalSafe ['"', '\u202e', '"'] = ['"', '\\', 'u', '2', '0', '2', 'e', '"'] := by
  decide

end Thegn.Dispatch
