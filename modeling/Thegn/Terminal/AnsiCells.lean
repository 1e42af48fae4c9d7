import Thegn.Lib.Words

set_option autoImplicit false

/-! # The coloured text of a differ

`thegn-core/src/ansi_cells.rs`: what an external differ prints becomes lines of styled runs. Of its
escape sequences those that select a graphic rendition, `ESC [ … m`, set the style; all others are
taken out of the text.

The text of a line is what stands outside the sequences, and each of its characters has the style
that the selections before it add up to (`lines_of_reads`, `cells_of_reads`). The parser drops the
controls up to U+001F, but it lets U+007F to U+009F pass, among them the one that begins a control
sequence on its own (`parseAnsi_shows_iff`).
-/

namespace Thegn.Terminal

open Text
open List hiding Vector

/-! ## Colours -/

structure Rgb where
  r : UInt8
  g : UInt8
  b : UInt8
  deriving DecidableEq

/-- The table in `ansi16`. -/
def palette : Vector Rgb 16 :=
  #v[⟨0, 0, 0⟩, ⟨128, 0, 0⟩, ⟨0, 128, 0⟩, ⟨128, 128, 0⟩, ⟨0, 0, 128⟩, ⟨128, 0, 128⟩, ⟨0, 128, 128⟩,
    ⟨192, 192, 192⟩,
    ⟨128, 128, 128⟩, ⟨255, 0, 0⟩, ⟨0, 255, 0⟩, ⟨255, 255, 0⟩, ⟨0, 0, 255⟩, ⟨255, 0, 255⟩,
    ⟨0, 255, 255⟩, ⟨255, 255, 255⟩]

def ansi16 (n : UInt8) : Rgb :=
  palette.get ⟨(n &&& 0x0f).toNat, by
    rw [UInt8.toNat_and]
    exact Nat.lt_of_le_of_lt Nat.and_le_right (by decide)⟩

def xterm256 (n : UInt8) : Rgb :=
  if n ≤ 15 then ansi16 n
  else if n ≤ 231 then
    let n := n - 16
    let comp (v : UInt8) : UInt8 := if v = 0 then 0 else 55 + 40 * v
    ⟨comp (n / 36 % 6), comp (n / 6 % 6), comp (n % 6)⟩
  else
    let v := 8 + 10 * (n - 232)
    ⟨v, v, v⟩

/-- `as u8` of an `i64`. -/
def asU8 (n : Int) : UInt8 := UInt8.ofNat (n % 256).toNat

def clamp8 (v : Int) : UInt8 := asU8 (max 0 (min v 255))

/-! ## The style -/

structure CellStyle where
  fg : Option Rgb := none
  bg : Option Rgb := none
  bold : Bool := false
  dim : Bool := false
  italic : Bool := false
  underline : Bool := false
  deriving DecidableEq

/-- The colour after a `38` or a `48`, and how many parameters it takes. -/
def readExtended (rest : List Int) : Option (Rgb × Nat) :=
  match rest.head? with
  | some 5 => (rest[1]?).map fun n => (xterm256 (asU8 n), 2)
  | some 2 => do
      let r := clamp8 (← rest[1]?)
      let g := clamp8 (← rest[2]?)
      let b := clamp8 (← rest[3]?)
      return (⟨r, g, b⟩, 4)
  | _ => none

/-- What a parameter other than `38` and `48` does. -/
def applyNumber (n : Int) (style : CellStyle) : CellStyle :=
  if n = 0 then {}
  else if n = 1 then { style with bold := true }
  else if n = 2 then { style with dim := true }
  else if n = 3 then { style with italic := true }
  else if n = 4 then { style with underline := true }
  else if n = 22 then { style with bold := false, dim := false }
  else if n = 23 then { style with italic := false }
  else if n = 24 then { style with underline := false }
  else if 30 ≤ n ∧ n ≤ 37 then { style with fg := some (ansi16 (asU8 (n - 30))) }
  else if n = 39 then { style with fg := none }
  else if 40 ≤ n ∧ n ≤ 47 then { style with bg := some (ansi16 (asU8 (n - 40))) }
  else if n = 49 then { style with bg := none }
  else if 90 ≤ n ∧ n ≤ 97 then { style with fg := some (ansi16 (asU8 (n - 90 + 8))) }
  else if 100 ≤ n ∧ n ≤ 107 then { style with bg := some (ansi16 (asU8 (n - 100 + 8))) }
  else style

/-- The loop of `apply_sgr`, from the parameter `i` on. -/
def applyNumbers (nums : List Int) (i : Nat) (style : CellStyle) : CellStyle :=
  if h : i < nums.length then
    if nums[i] = 38 then
      match readExtended (nums.drop (i + 1)) with
      | some (rgb, used) => applyNumbers nums (i + used + 1) { style with fg := some rgb }
      | none => style
    else if nums[i] = 48 then
      match readExtended (nums.drop (i + 1)) with
      | some (rgb, used) => applyNumbers nums (i + used + 1) { style with bg := some rgb }
      | none => style
    else applyNumbers nums (i + 1) (applyNumber nums[i] style)
  else style
termination_by nums.length - i

/-- The numbers of a parameter string. What is no `i64` counts as `0`. -/
def sgrNumbers (params : Text) : List Int :=
  if params = [] then [0]
  else (params.splitOn ';').map fun p => (parseSigned (2 ^ 63) (trim p)).getD 0

def applySgr (params : Text) (style : CellStyle) : CellStyle :=
  applyNumbers (sgrNumbers params) 0 style

/-! ## Lines of runs -/

structure StyledRun where
  text : Text
  style : CellStyle
  deriving DecidableEq

abbrev StyledLine := List StyledRun

def escape : Char := Char.ofNat 0x1b

def bell : Char := Char.ofNat 0x07

/-- The last character of a control sequence. -/
def isFinal (c : Char) : Bool := 0x40 ≤ c.toNat && c.toNat ≤ 0x7e

/-- Up to the final character: what stands before it, the character itself, and what is left. -/
def readCsi (params : Text) : Text → Text × Option Char × Text
  | [] => (params, none, [])
  | c :: chars => if isFinal c then (params, some c, chars) else readCsi (params ++ [c]) chars

/-- What is left behind an OSC string. -/
def consumeOsc : Text → Text
  | [] => []
  | c :: chars =>
    if c = bell then chars
    else if c = escape then
      match chars with
      | '\\' :: chars => chars
      | _ => chars
    else consumeOsc chars

/-- The variables of the loop of `parse_ansi`. -/
structure Parse where
  lines : List StyledLine := []
  cur : StyledLine := []
  style : CellStyle := {}
  run : Text := []

def Parse.flush (p : Parse) : Parse :=
  if p.run ≠ [] then { p with cur := p.cur ++ [⟨p.run, p.style⟩], run := [] } else p

/-- The pending text goes into its line before the style changes. -/
def Parse.select (p : Parse) (params : Text) (final : Option Char) : Parse :=
  if final = some 'm' then { p.flush with style := applySgr params p.style } else p

def Parse.endLine (p : Parse) : Parse :=
  { p.flush with lines := p.lines ++ [p.flush.cur], cur := [] }

/-- A character that is not an escape. -/
def Parse.char (p : Parse) (c : Char) : Parse :=
  if c = '\n' then p.endLine
  else if c = '\r' then p
  else if c = '\t' then { p with run := p.run ++ ['\t'] }
  else if c.toNat < 0x20 then p
  else { p with run := p.run ++ [c] }

theorem length_readCsi (params chars : Text) :
    (readCsi params chars).2.2.length ≤ chars.length := by
  induction chars generalizing params with
  | nil => simp [readCsi]
  | cons c chars ih =>
    rw [readCsi]
    split
    · simp
    · exact le_trans (ih _) (by simp)

theorem length_consumeOsc (chars : Text) : (consumeOsc chars).length ≤ chars.length := by
  induction chars with
  | nil => simp [consumeOsc]
  | cons c chars ih =>
    rw [consumeOsc.eq_def]
    dsimp only
    split_ifs
    · simp
    · split <;> simp only [length_cons] <;> omega
    · exact le_trans ih (by simp)

/-- The loop of `parse_ansi`. -/
def parseChars : Text → Parse → Parse
  | [], p => p
  | c :: chars, p =>
    if c = escape then
      match chars with
      | '[' :: chars =>
        let csi := readCsi [] chars
        parseChars csi.2.2 (p.select csi.1 csi.2.1)
      | ']' :: chars => parseChars (consumeOsc chars) p
      | _ :: chars => parseChars chars p
      | [] => p
    else parseChars chars (p.char c)
termination_by chars => chars.length
decreasing_by
  · have := length_readCsi [] chars
    simp only [length_cons]
    omega
  · have := length_consumeOsc chars
    simp only [length_cons]
    omega
  · simp only [length_cons]
    omega
  · simp only [length_cons]
    omega

/-- The end of `parse_ansi`: the last line is kept when there is something on it. -/
def Parse.finish (p : Parse) : List StyledLine :=
  if p.flush.cur ≠ [] then p.flush.lines ++ [p.flush.cur] else p.flush.lines

def parseAnsi (input : Text) : List StyledLine := (parseChars input {}).finish

/-! ## The rendition that parameters select -/

inductive Attribute
  | reset
  | bold
  | dim
  | italic
  | underline
  | normal
  | upright
  | plain
  | fg (color : Option Rgb)
  | bg (color : Option Rgb)

def Attribute.apply : CellStyle → Attribute → CellStyle
  | _, .reset => {}
  | style, .bold => { style with bold := true }
  | style, .dim => { style with dim := true }
  | style, .italic => { style with italic := true }
  | style, .underline => { style with underline := true }
  | style, .normal => { style with bold := false, dim := false }
  | style, .upright => { style with italic := false }
  | style, .plain => { style with underline := false }
  | style, .fg color => { style with fg := color }
  | style, .bg color => { style with bg := color }

/-- A parameter that stands for itself. -/
def attribute? (n : Int) : Option Attribute :=
  if n = 0 then some .reset
  else if n = 1 then some .bold
  else if n = 2 then some .dim
  else if n = 3 then some .italic
  else if n = 4 then some .underline
  else if n = 22 then some .normal
  else if n = 23 then some .upright
  else if n = 24 then some .plain
  else if 30 ≤ n ∧ n ≤ 37 then some (.fg (some (ansi16 (asU8 (n - 30)))))
  else if n = 39 then some (.fg none)
  else if 40 ≤ n ∧ n ≤ 47 then some (.bg (some (ansi16 (asU8 (n - 40)))))
  else if n = 49 then some (.bg none)
  else if 90 ≤ n ∧ n ≤ 97 then some (.fg (some (ansi16 (asU8 (n - 90 + 8)))))
  else if 100 ≤ n ∧ n ≤ 107 then some (.bg (some (ansi16 (asU8 (n - 100 + 8)))))
  else none

/-- What a list of parameters selects. A colour that is not complete ends it. -/
def attributes : List Int → List Attribute
  | 38 :: 5 :: n :: rest => .fg (some (xterm256 (asU8 n))) :: attributes rest
  | 38 :: 2 :: r :: g :: b :: rest => .fg (some ⟨clamp8 r, clamp8 g, clamp8 b⟩) :: attributes rest
  | 38 :: _ => []
  | 48 :: 5 :: n :: rest => .bg (some (xterm256 (asU8 n))) :: attributes rest
  | 48 :: 2 :: r :: g :: b :: rest => .bg (some ⟨clamp8 r, clamp8 g, clamp8 b⟩) :: attributes rest
  | 48 :: _ => []
  | n :: rest => (attribute? n).toList ++ attributes rest
  | [] => []

/-- The style behind a selection. -/
def CellStyle.select (style : CellStyle) (params : Text) : CellStyle :=
  (attributes (sgrNumbers params)).foldl Attribute.apply style

theorem applyNumber_eq (n : Int) (style : CellStyle) :
    applyNumber n style = (attribute? n).toList.foldl Attribute.apply style := by
  rw [attribute?]
  simp only [apply_ite (fun a : Option Attribute => a.toList.foldl Attribute.apply style)]
  rfl

/-- No colour begins with these parameters. -/
theorem readExtended_eq_none {rest : List Int} (h5 : ∀ n tail, rest ≠ 5 :: n :: tail)
    (h2 : ∀ r g b tail, rest ≠ 2 :: r :: g :: b :: tail) : readExtended rest = none := by
  unfold readExtended
  split
  case h_1 h =>
    match rest, h with
    | [_], h => rfl
    | _ :: n :: tail, h => exact absurd (by rw [Option.some.inj h]) (h5 n tail)
  case h_2 h =>
    match rest, h with
    | [_], h => rfl
    | [_, _], h => rfl
    | [_, _, _], h => rfl
    | _ :: r :: g :: b :: tail, h => exact absurd (by rw [Option.some.inj h]) (h2 r g b tail)
  case h_3 => rfl

/-- One round of the loop. -/
theorem applyNumbers_cons (pre rest : List Int) (n : Int) (style : CellStyle) :
    applyNumbers (pre ++ n :: rest) pre.length style =
      if n = 38 then
        match readExtended rest with
        | some (rgb, used) =>
          applyNumbers (pre ++ n :: rest) (pre.length + used + 1) { style with fg := some rgb }
        | none => style
      else if n = 48 then
        match readExtended rest with
        | some (rgb, used) =>
          applyNumbers (pre ++ n :: rest) (pre.length + used + 1) { style with bg := some rgb }
        | none => style
      else applyNumbers (pre ++ n :: rest) (pre.length + 1) (applyNumber n style) := by
  have hdrop : (pre ++ n :: rest).drop (pre.length + 1) = rest := by simp
  rw [applyNumbers, dif_pos (by simp), hdrop]
  simp only [getElem_append_right (le_refl pre.length), Nat.sub_self, getElem_cons_zero]

/-- The loop goes on behind the parameters it has read. -/
theorem applyNumbers_at {pre r rest : List Int} {i : Nat} (hi : i = pre.length + r.length)
    (style : CellStyle) :
    applyNumbers (pre ++ (r ++ rest)) i style =
      applyNumbers ((pre ++ r) ++ rest) (pre ++ r).length style := by
  rw [hi, append_assoc, length_append]

/-- The loop does what its parameters select, one after the other. -/
theorem applyNumbers_append (rest pre : List Int) (style : CellStyle) :
    applyNumbers (pre ++ rest) pre.length style =
      (attributes rest).foldl Attribute.apply style := by
  fun_induction attributes rest generalizing pre style with
  | case1 n rest ih =>
    rw [applyNumbers_cons, if_pos rfl]
    exact (applyNumbers_at (r := [38, 5, n]) (by simp) _).trans (ih _ _)
  | case2 r g b rest ih =>
    rw [applyNumbers_cons, if_pos rfl]
    exact (applyNumbers_at (r := [38, 2, r, g, b]) (by simp) _).trans (ih _ _)
  | case3 tail h5 h2 =>
    rw [applyNumbers_cons, if_pos rfl, readExtended_eq_none h5 h2]
    rfl
  | case4 n rest ih =>
    rw [applyNumbers_cons, if_neg (by decide), if_pos rfl]
    exact (applyNumbers_at (r := [48, 5, n]) (by simp) _).trans (ih _ _)
  | case5 r g b rest ih =>
    rw [applyNumbers_cons, if_neg (by decide), if_pos rfl]
    exact (applyNumbers_at (r := [48, 2, r, g, b]) (by simp) _).trans (ih _ _)
  | case6 tail h5 h2 =>
    rw [applyNumbers_cons, if_neg (by decide), if_pos rfl, readExtended_eq_none h5 h2]
    rfl
  | case7 n rest _ _ h38 _ _ h48 ih =>
    rw [applyNumbers_cons, if_neg h38, if_neg h48, foldl_append, ← applyNumber_eq]
    exact (applyNumbers_at (r := [n]) (by simp) _).trans (ih _ _)
  | case8 =>
    rw [applyNumbers, dif_neg (by simp)]
    rfl

theorem applySgr_eq (params : Text) (style : CellStyle) :
    applySgr params style = style.select params :=
  applyNumbers_append (sgrNumbers params) [] style

/-! ## What a text is made of -/

/-- A character that stands for itself: a tab, or none of the controls up to U+001F. -/
def isShown (c : Char) : Bool := c == '\t' || decide (0x20 ≤ c.toNat)

/-- U+007F, or one of the controls from U+0080 to U+009F. -/
def isLateControl (c : Char) : Bool := decide (0x7f ≤ c.toNat) && decide (c.toNat ≤ 0x9f)

inductive Piece
  | shown (c : Char)
  | newline
  | dropped (c : Char)
  | csi (params : Text) (final : Char)
  | osc (body terminator : Text)
  | pair (c : Char)
  | cut (sequence : Text)

def Piece.source : Piece → Text
  | .shown c => [c]
  | .newline => ['\n']
  | .dropped c => [c]
  | .csi params final => escape :: '[' :: (params ++ [final])
  | .osc body terminator => escape :: ']' :: (body ++ terminator)
  | .pair c => [escape, c]
  | .cut sequence => sequence

/-- Printable text, a tab, a newline, or a complete sequence. -/
def Piece.Complete : Piece → Prop
  | .shown c => c = '\t' ∨ isControl c = false
  | .newline => True
  | .csi params final => (∀ c ∈ params, 0x20 ≤ c.toNat ∧ c.toNat ≤ 0x3f) ∧ isFinal final = true
  | .osc body terminator =>
    (∀ c ∈ body, c ≠ bell ∧ c ≠ escape) ∧ (terminator = [bell] ∨ terminator = [escape, '\\'])
  | _ => False

/-- How a text falls into pieces. A sequence may be cut off by the end of the text, and an escape
ends an OSC string whatever comes behind it. -/
inductive Reads : Text → List Piece → Prop
  | nil : Reads [] []
  | shown {c s ps} (hc : isShown c = true) (rest : Reads s ps) : Reads (c :: s) (.shown c :: ps)
  | newline {s ps} (rest : Reads s ps) : Reads ('\n' :: s) (.newline :: ps)
  | dropped {c s ps} (hc : isShown c = false) (hline : c ≠ '\n') (hesc : c ≠ escape)
      (rest : Reads s ps) :
      Reads (c :: s) (.dropped c :: ps)
  | csi {params final s ps} (hparams : ∀ c ∈ params, isFinal c = false)
      (hfinal : isFinal final = true)
      (rest : Reads s ps) : Reads (escape :: '[' :: (params ++ final :: s))
        (.csi params final :: ps)
  | cutCsi {params} (hparams : ∀ c ∈ params, isFinal c = false) :
      Reads (escape :: '[' :: params) [.cut (escape :: '[' :: params)]
  | oscBell {body s ps} (hbody : ∀ c ∈ body, c ≠ bell ∧ c ≠ escape) (rest : Reads s ps) :
      Reads (escape :: ']' :: (body ++ bell :: s)) (.osc body [bell] :: ps)
  | oscTerminator {body s ps} (hbody : ∀ c ∈ body, c ≠ bell ∧ c ≠ escape) (rest : Reads s ps) :
      Reads (escape :: ']' :: (body ++ escape :: '\\' :: s)) (.osc body [escape, '\\'] :: ps)
  | oscEscape {body s ps} (hbody : ∀ c ∈ body, c ≠ bell ∧ c ≠ escape) (hs : ∀ c ∈ s.head?, c ≠ '\\')
      (rest : Reads s ps) : Reads (escape :: ']' :: (body ++ escape :: s))
        (.osc body [escape] :: ps)
  | cutOsc {body} (hbody : ∀ c ∈ body, c ≠ bell ∧ c ≠ escape) :
      Reads (escape :: ']' :: body) [.cut (escape :: ']' :: body)]
  | pair {c s ps} (hcsi : c ≠ '[') (hosc : c ≠ ']') (rest : Reads s ps) :
      Reads (escape :: c :: s) (.pair c :: ps)
  | cutEscape : Reads [escape] [.cut [escape]]

def Piece.visible : Piece → Text
  | .shown c => [c]
  | .newline => ['\n']
  | _ => []

/-- The text outside the sequences. -/
def visible (ps : List Piece) : Text := ps.flatMap Piece.visible

/-- The characters of the text, each in the style that the selections before it add up to. -/
def styled (style : CellStyle) : List Piece → List (Char × CellStyle)
  | .shown c :: ps => (c, style) :: styled style ps
  | .csi params 'm' :: ps => styled (style.select params) ps
  | _ :: ps => styled style ps
  | [] => []

def lineText (line : StyledLine) : Text := line.flatMap StyledRun.text

def lineCells (line : StyledLine) : List (Char × CellStyle) :=
  line.flatMap fun run => run.text.map fun c => (c, run.style)

/-- An OSC string, when what follows falls into pieces. -/
theorem exists_reads_osc {s : Text} (ih : ∀ t : Text, t.length ≤ s.length → ∃ ps, Reads t ps) :
    ∃ ps, Reads (escape :: ']' :: s) ps := by
  cases hs : splitOnceP (fun c => c == bell || c == escape) s with
  | none => exact ⟨_, .cutOsc fun c hc => by simpa using forall_of_splitOnceP_eq_none hs c hc⟩
  | some wr =>
    obtain ⟨last, rfl, hlast, hbody⟩ := splitOnceP_eq_some hs
    have hbody : ∀ c ∈ wr.1, c ≠ bell ∧ c ≠ escape := fun c hc => by simpa using hbody c hc
    have hlast : last = bell ∨ last = escape := by simpa using hlast
    obtain ⟨ps, hps⟩ := ih wr.2 (by simp only [length_append, length_cons]; omega)
    rcases hlast with rfl | rfl
    · exact ⟨_, .oscBell hbody hps⟩
    by_cases hnext : ∀ c ∈ wr.2.head?, c ≠ '\\'
    · exact ⟨_, .oscEscape hbody hnext hps⟩
    -- the backslash is the end of the terminator
    obtain ⟨t, ht⟩ : ∃ t, wr.2 = '\\' :: t := by
      cases hw : wr.2 with
      | nil => simp [hw] at hnext
      | cons c t =>
        refine ⟨t, ?_⟩
        rw [hw] at hnext
        simpa using hnext
    rw [ht] at ih ⊢
    obtain ⟨qs, hqs⟩ := ih t (by simp only [length_append, length_cons]; omega)
    exact ⟨_, .oscTerminator hbody hqs⟩

/-- A sequence, when what follows falls into pieces. -/
theorem exists_reads_escape {s : Text} (ih : ∀ t : Text, t.length ≤ s.length → ∃ ps, Reads t ps) :
    ∃ ps, Reads (escape :: s) ps := by
  cases s with
  | nil => exact ⟨_, .cutEscape⟩
  | cons c s =>
    have ih' : ∀ t : Text, t.length ≤ s.length → ∃ ps, Reads t ps :=
      fun t ht => ih t (by simp; omega)
    by_cases hcsi : c = '['
    · subst hcsi
      cases hs : splitOnceP isFinal s with
      | none => exact ⟨_, .cutCsi (forall_of_splitOnceP_eq_none hs)⟩
      | some wr =>
        obtain ⟨final, rfl, hfinal, hparams⟩ := splitOnceP_eq_some hs
        obtain ⟨ps, hps⟩ := ih' wr.2 (by simp only [length_append, length_cons]; omega)
        exact ⟨_, .csi hparams hfinal hps⟩
    · by_cases hosc : c = ']'
      · subst hosc
        exact exists_reads_osc ih'
      · obtain ⟨ps, hps⟩ := ih' s le_rfl
        exact ⟨_, .pair hcsi hosc hps⟩

/-- **Every text falls into pieces.** -/
theorem exists_reads (s : Text) : ∃ ps, Reads s ps := by
  induction hn : s.length using Nat.strong_induction_on generalizing s with
  | _ n ih =>
    cases s with
    | nil => exact ⟨_, .nil⟩
    | cons c s =>
      have ih' : ∀ t : Text, t.length ≤ s.length → ∃ ps, Reads t ps := fun t ht =>
        ih t.length (by rw [← hn, length_cons]; omega) t rfl
      by_cases hesc : c = escape
      · rw [hesc]
        exact exists_reads_escape ih'
      · obtain ⟨ps, hps⟩ := ih' s le_rfl
        by_cases hc : isShown c = true
        · exact ⟨_, .shown hc hps⟩
        · by_cases hline : c = '\n'
          · rw [hline]
            exact ⟨_, .newline hps⟩
          · exact ⟨_, .dropped (by simpa using hc) hline hesc hps⟩

theorem isShown_of_not_isControl {c : Char} (h : c = '\t' ∨ isControl c = false) :
    isShown c = true := by
  rcases h with rfl | h
  · rfl
  · simp only [isControl, Bool.or_eq_false_iff, decide_eq_false_iff_not] at h
    simp only [isShown, Bool.or_eq_true, decide_eq_true_eq]
    omega

/-- The text that is made of complete pieces falls into these. -/
theorem reads_of_complete {ps : List Piece} (h : ∀ p ∈ ps, p.Complete) :
    Reads (ps.flatMap Piece.source) ps := by
  induction ps with
  | nil => exact .nil
  | cons p ps ih =>
    have hp : p.Complete := h p (.head _)
    have hps := ih fun q hq => h q (mem_cons_of_mem p hq)
    rw [List.flatMap_cons]
    cases p with
    | shown c => exact .shown (isShown_of_not_isControl hp) hps
    | newline => exact .newline hps
    | csi params final =>
      have hparams : ∀ c ∈ params, isFinal c = false := fun c hc => by
        have := (hp.1 c hc).2
        simp only [isFinal, Bool.and_eq_false_iff, decide_eq_false_iff_not]
        omega
      simpa [Piece.source] using Reads.csi hparams hp.2 hps
    | osc body terminator =>
      obtain ⟨hbody, rfl | rfl⟩ := hp
      · simpa [Piece.source] using Reads.oscBell hbody hps
      · simpa [Piece.source] using Reads.oscTerminator hbody hps
    | dropped c | pair c | cut s => exact hp.elim

/-! ## How the parser reads the pieces -/

theorem readCsi_append {params : Text} (h : ∀ c ∈ params, isFinal c = false) {final : Char}
    (hfinal : isFinal final = true)
    (acc s : Text) : readCsi acc (params ++ final :: s) = (acc ++ params, some final, s) := by
  induction params generalizing acc with
  | nil => rw [nil_append, readCsi, if_pos hfinal, append_nil]
  | cons c params ih =>
    rw [cons_append, readCsi, if_neg (by simp [h c mem_cons_self]),
      ih (fun d hd => h d (mem_cons_of_mem c hd)), append_assoc, singleton_append]

theorem readCsi_cut {params : Text} (h : ∀ c ∈ params, isFinal c = false) (acc : Text) :
    readCsi acc params = (acc ++ params, none, []) := by
  induction params generalizing acc with
  | nil => rw [readCsi, append_nil]
  | cons c params ih =>
    rw [readCsi, if_neg (by simp [h c mem_cons_self]), ih (fun d hd => h d (mem_cons_of_mem c hd)),
      append_assoc, singleton_append]

theorem consumeOsc_append {body : Text} (h : ∀ c ∈ body, c ≠ bell ∧ c ≠ escape) (s : Text) :
    consumeOsc (body ++ s) = consumeOsc s := by
  induction body with
  | nil => rfl
  | cons c body ih =>
    obtain ⟨hbell, hescape⟩ := h c (.head _)
    rw [cons_append, consumeOsc.eq_def]
    dsimp only
    rw [if_neg hbell, if_neg hescape, ih fun d hd => h d (mem_cons_of_mem c hd)]

theorem consumeOsc_bell (s : Text) : consumeOsc (bell :: s) = s := by
  rw [consumeOsc.eq_def]
  exact if_pos rfl

theorem consumeOsc_terminator (s : Text) : consumeOsc (escape :: '\\' :: s) = s := by
  rw [consumeOsc.eq_def]
  dsimp only
  rw [if_neg (by decide), if_pos rfl]
  rfl

theorem consumeOsc_escape {s : Text} (h : ∀ c ∈ s.head?, c ≠ '\\') :
    consumeOsc (escape :: s) = s := by
  rw [consumeOsc.eq_def]
  dsimp only
  rw [if_neg (by decide), if_pos rfl]
  split
  · simp at h
  · rfl

section

variable (s : Text) (p : Parse)

@[simp] theorem parseChars_nil : parseChars [] p = p := by rw [parseChars]

theorem parseChars_char {c : Char} (h : c ≠ escape) :
    parseChars (c :: s) p = parseChars s (p.char c) := by
  rw [parseChars.eq_def]
  exact if_neg h

theorem parseChars_csi : parseChars (escape :: '[' :: s) p =
    parseChars (readCsi [] s).2.2 (p.select (readCsi [] s).1 (readCsi [] s).2.1) := by
  rw [parseChars.eq_def]
  exact if_pos rfl

theorem parseChars_osc : parseChars (escape :: ']' :: s) p = parseChars (consumeOsc s) p := by
  rw [parseChars.eq_def]
  exact if_pos rfl

theorem parseChars_pair {c : Char} (hcsi : c ≠ '[') (hosc : c ≠ ']') :
    parseChars (escape :: c :: s) p = parseChars s p := by
  rw [parseChars.eq_def]
  dsimp only
  rw [if_pos rfl]
  split
  case h_1 heq => exact absurd (List.cons.inj heq).1 hcsi
  case h_2 heq => exact absurd (List.cons.inj heq).1 hosc
  case h_3 heq => rw [(List.cons.inj heq).2]
  case h_4 heq => cases heq

end

/-- What the parser makes of a piece. -/
def Parse.piece (p : Parse) : Piece → Parse
  | .shown c => { p with run := p.run ++ [c] }
  | .newline => p.endLine
  | .csi params final => p.select params (some final)
  | _ => p

theorem Parse.char_shown (p : Parse) {c : Char} (h : isShown c = true) :
    p.char c = { p with run := p.run ++ [c] } := by
  have hshown : c = '\t' ∨ 0x20 ≤ c.toNat := by simpa [isShown] using h
  rcases hshown with rfl | hc
  · rfl
  · have hcontrol : ∀ d : Char, d.toNat < 0x20 → c ≠ d := by
      rintro d hd rfl
      omega
    rw [Parse.char, if_neg (hcontrol '\n' (by decide)), if_neg (hcontrol '\r' (by decide)),
      if_neg (hcontrol '\t' (by decide)), if_neg (by omega)]

theorem Parse.char_dropped (p : Parse) {c : Char} (h : isShown c = false) (hline : c ≠ '\n') :
    p.char c = p := by
  obtain ⟨htab, hc⟩ : c ≠ '\t' ∧ c.toNat < 0x20 := by simpa [isShown] using h
  rw [Parse.char, if_neg hline, if_neg htab, if_pos hc, ite_self]

theorem ne_escape_of_isShown {c : Char} (h : isShown c = true) : c ≠ escape := by
  rintro rfl
  revert h
  decide

/-- **The parser takes a text piece by piece.** -/
theorem parseChars_of_reads {s : Text} {ps : List Piece} (h : Reads s ps) (p : Parse) :
    parseChars s p = ps.foldl Parse.piece p := by
  induction h generalizing p with
  | nil => exact parseChars_nil p
  | shown hc _ ih =>
    rw [parseChars_char _ _ (ne_escape_of_isShown hc), ih, Parse.char_shown p hc]
    rfl
  | newline _ ih =>
    rw [parseChars_char _ _ (by decide), ih]
    rfl
  | dropped hc hline hesc _ ih =>
    rw [parseChars_char _ _ hesc, ih, Parse.char_dropped p hc hline]
    rfl
  | csi hparams hfinal _ ih =>
    rw [parseChars_csi, readCsi_append hparams hfinal, ih]
    rfl
  | cutCsi hparams =>
    rw [parseChars_csi, readCsi_cut hparams, parseChars_nil]
    rfl
  | oscBell hbody _ ih =>
    rw [parseChars_osc, consumeOsc_append hbody, consumeOsc_bell, ih]
    rfl
  | oscTerminator hbody _ ih =>
    rw [parseChars_osc, consumeOsc_append hbody, consumeOsc_terminator, ih]
    rfl
  | oscEscape hbody hnext _ ih =>
    rw [parseChars_osc, consumeOsc_append hbody, consumeOsc_escape hnext, ih]
    rfl
  | @cutOsc body hbody =>
    have hrest : consumeOsc body = [] := by simpa [consumeOsc] using consumeOsc_append hbody []
    rw [parseChars_osc, hrest, parseChars_nil]
    rfl
  | pair hcsi hosc _ ih =>
    rw [parseChars_pair _ _ hcsi hosc, ih]
    rfl
  | cutEscape =>
    rw [parseChars, if_pos rfl]
    rfl

/-! ## What is on the lines -/

/-- The characters that the parser has taken so far, with their styles. -/
def Parse.cells (p : Parse) : List (Char × CellStyle) :=
  p.lines.flatMap lineCells ++ lineCells p.cur ++ p.run.map fun c => (c, p.style)

/-- The text of the line that the parser is on. -/
def Parse.text (p : Parse) : Text := lineText p.cur ++ p.run

/-- The runs of the line hold something, and there is no newline in it. -/
structure Parse.Ok (p : Parse) : Prop where
  run : ∀ run ∈ p.cur, run.text ≠ []
  line : '\n' ∉ p.text

section

variable (p : Parse)

@[simp] theorem Parse.flush_lines : p.flush.lines = p.lines := by
  unfold Parse.flush
  split <;> rfl

@[simp] theorem Parse.flush_style : p.flush.style = p.style := by
  unfold Parse.flush
  split <;> rfl

@[simp] theorem Parse.flush_run : p.flush.run = [] := by
  unfold Parse.flush
  split
  · rfl
  · exact not_ne_iff.mp ‹_›

theorem Parse.lineText_flush : lineText p.flush.cur = p.text := by
  unfold Parse.flush Parse.text
  split
  case isTrue h => simp [lineText]
  case isFalse h => rw [not_ne_iff.mp h, append_nil]

theorem Parse.lineCells_flush : lineCells p.flush.cur = lineCells p.cur ++ p.run.map fun c =>
  (c, p.style) := by
  unfold Parse.flush
  split
  case isTrue h => simp [lineCells]
  case isFalse h => rw [not_ne_iff.mp h, map_nil, append_nil]

theorem Parse.cells_finish : p.finish.flatMap lineCells = p.cells := by
  have hcur : p.flush.cur = [] → lineCells p.cur ++ p.run.map (fun c => (c, p.style)) = [] := by
    intro h
    rw [← p.lineCells_flush, h]
    rfl
  rw [Parse.finish, Parse.cells, append_assoc, p.flush_lines]
  split
  case isTrue h => rw [flatMap_append, flatMap_singleton, p.lineCells_flush]
  case isFalse h => rw [hcur (not_ne_iff.mp h), append_nil]

end

theorem Parse.cells_endLine (p : Parse) : p.endLine.cells = p.cells := by
  have hempty : lineCells [] = [] := rfl
  simp [Parse.endLine, Parse.cells, lineCells_flush, hempty]

theorem Parse.cells_select (p : Parse) (params : Text) (final : Option Char) :
    (p.select params final).cells = p.cells := by
  unfold Parse.select
  split
  · simp [Parse.cells, lineCells_flush]
  · rfl

/-- The parser goes on to take the characters, in the styles they have. -/
theorem Parse.cells_foldl (ps : List Piece) (p : Parse) :
    (ps.foldl Parse.piece p).cells = p.cells ++ styled p.style ps := by
  induction ps generalizing p with
  | nil => simp [styled]
  | cons q ps ih =>
    rw [foldl_cons, ih]
    cases q with
    | shown c => simp [Parse.piece, styled, Parse.cells]
    | newline =>
      have hstyle : p.endLine.style = p.style := p.flush_style
      rw [Parse.piece, Parse.cells_endLine, hstyle, styled] <;> simp
    | csi params final =>
      rw [Parse.piece, Parse.cells_select]
      by_cases hm : final = 'm'
      · rw [hm, styled, Parse.select, if_pos rfl, applySgr_eq]
      · simp [Parse.select, styled, hm]
    | dropped c | osc body terminator | pair c | cut s => simp [Parse.piece, styled]

theorem Parse.ok_endLine (p : Parse) : p.endLine.Ok where
  run := by simp [Parse.endLine]
  line := by simp [Parse.endLine, Parse.text, lineText]

theorem Parse.Ok.flush {p : Parse} (h : p.Ok) : p.flush.Ok where
  run := by
    unfold Parse.flush
    split
    case isTrue hrun =>
      intro run hmem
      rcases mem_append.mp hmem with hmem | hmem
      · exact h.run run hmem
      · rw [mem_singleton.mp hmem]
        exact hrun
    case isFalse => exact h.run
  line := by rw [Parse.text, p.flush_run, append_nil, p.lineText_flush]; exact h.line

/-- There is nothing on a line exactly when it has no text. -/
theorem Parse.Ok.flush_eq_nil {p : Parse} (h : p.Ok) : p.flush.cur = [] ↔ p.text = [] := by
  rw [← p.lineText_flush, lineText, flatMap_eq_nil_iff]
  constructor
  · intro hcur
    rw [hcur]
    simp
  · intro hall
    refine eq_nil_iff_forall_not_mem.mpr fun run hrun => ?_
    exact h.flush.run run hrun (hall run hrun)

/-- What becomes of the lines, when a text is still to come. -/
def Parse.pending (p : Parse) (rest : Text) : List Text :=
  p.lines.map lineText ++ segments (p.text ++ rest)

theorem segments_of_not_mem {w : Text} (h : '\n' ∉ w) :
    segments w = if w = [] then [] else [w] := by
  rw [segments, splitOn_eq_singleton h]
  by_cases hw : w = [] <;> simp [hw]

theorem segments_cons {w : Text} (h : '\n' ∉ w) (r : Text) :
    segments (w ++ '\n' :: r) = w :: segments r := by
  obtain ⟨m, ms, hm⟩ := exists_cons_of_ne_nil (splitOn_ne_nil '\n' r)
  rw [segments, segments, splitOn_append_cons_self_of_not_mem h, hm]
  rw [List.getLast?_cons_cons]
  split_ifs <;> rfl

theorem Parse.Ok.finish {p : Parse} (h : p.Ok) : p.finish.map lineText = p.pending [] := by
  rw [Parse.finish, Parse.pending, append_nil, segments_of_not_mem h.line, p.flush_lines]
  by_cases hcur : p.flush.cur = []
  · rw [if_neg (not_not.mpr hcur), if_pos (h.flush_eq_nil.mp hcur), append_nil]
  · rw [if_pos hcur, if_neg fun htext => hcur (h.flush_eq_nil.mpr htext), map_append, map_singleton,
      p.lineText_flush]

theorem Parse.Ok.select {p : Parse} (h : p.Ok) (params : Text) (final : Option Char) :
    (p.select params final).Ok := by
  unfold Parse.select
  split
  · exact ⟨h.flush.run, h.flush.line⟩
  · exact h

theorem Parse.pending_select (p : Parse) (params : Text) (final : Option Char) (rest : Text) :
    (p.select params final).pending rest = p.pending rest := by
  unfold Parse.select
  split
  · simp [Parse.pending, Parse.text, lineText_flush]
  · rfl

theorem Parse.Ok.pending_endLine {p : Parse} (h : p.Ok) (rest : Text) :
    p.endLine.pending rest = p.pending ('\n' :: rest) := by
  have hempty : p.endLine.text = [] := by simp [Parse.endLine, Parse.text, lineText]
  rw [Parse.pending, Parse.pending, segments_cons h.line, hempty, nil_append, Parse.endLine,
    map_append, map_singleton, p.lineText_flush, append_assoc, singleton_append]

/-- A piece moves its visible text from what is to come to what has been taken. -/
theorem Parse.Ok.piece {p : Parse} (h : p.Ok) {q : Piece} (hq : q ≠ .shown '\n') (rest : Text) :
    (p.piece q).Ok ∧ (p.piece q).pending rest = p.pending (q.visible ++ rest) := by
  cases q with
  | shown c =>
    have hc : '\n' ≠ c := fun hc => hq (by rw [hc])
    refine ⟨⟨h.run, ?_⟩, by simp [Parse.piece, Parse.pending, Parse.text, Piece.visible]⟩
    have hline : '\n' ∉ p.text ++ [c] := by simp [h.line, hc]
    simpa [Parse.piece, Parse.text] using hline
  | newline => exact ⟨p.ok_endLine, h.pending_endLine rest⟩
  | csi params final => exact ⟨h.select params final, p.pending_select params final rest⟩
  | dropped c | osc body terminator | pair c | cut s => exact ⟨h, rfl⟩

theorem Parse.Ok.foldl {ps : List Piece} (hps : .shown '\n' ∉ ps) {p : Parse} (h : p.Ok) :
    (ps.foldl Parse.piece p).Ok ∧ (ps.foldl Parse.piece p).pending [] =
      p.pending (Terminal.visible ps) := by
  induction ps generalizing p with
  | nil => exact ⟨h, rfl⟩
  | cons q ps ih =>
    rw [mem_cons, not_or] at hps
    obtain ⟨hok, hpending⟩ := h.piece (Ne.symm hps.1) (Terminal.visible ps)
    obtain ⟨hok', hpending'⟩ := ih hps.2 hok
    exact ⟨hok', hpending'.trans hpending⟩

theorem Reads.isShown {s : Text} {ps : List Piece} (h : Reads s ps) {c : Char}
    (hc : .shown c ∈ ps) : isShown c = true := by
  induction h with
  | nil => cases hc
  | shown hshown _ ih =>
    rcases mem_cons.mp hc with heq | hc
    · cases heq
      exact hshown
    · exact ih hc
  | newline _ ih | dropped _ _ _ _ ih | csi _ _ _ ih | oscBell _ _ ih | oscTerminator _ _ ih
  | oscEscape _ _ _ ih
  | pair _ _ _ ih =>
    rcases mem_cons.mp hc with heq | hc
    · cases heq
    · exact ih hc
  | cutCsi _ | cutOsc _ | cutEscape => simp at hc

/-- **The lines are those of the text outside the sequences.** -/
theorem lines_of_reads {s : Text} {ps : List Piece} (h : Reads s ps) :
    (parseAnsi s).map lineText = segments (visible ps) := by
  have hps : .shown '\n' ∉ ps := fun hmem => absurd (h.isShown hmem) (by decide)
  have hok : Parse.Ok {} := ⟨by simp, by simp [Parse.text, lineText]⟩
  obtain ⟨hok', hpending⟩ := hok.foldl hps
  rw [parseAnsi, parseChars_of_reads h, hok'.finish, hpending]
  rfl

/-- **The style of a character is what the selections before it add up to.** -/
theorem cells_of_reads {s : Text} {ps : List Piece} (h : Reads s ps) :
    (parseAnsi s).flatMap lineCells = styled {} ps := by
  rw [parseAnsi, Parse.cells_finish, parseChars_of_reads h, Parse.cells_foldl]
  rfl

theorem mem_styled {ps : List Piece} {c : Char} (style : CellStyle) :
    c ∈ (styled style ps).map Prod.fst ↔ .shown c ∈ ps := by
  fun_induction styled style ps with
  | case1 style d ps ih =>
    rw [map_cons, mem_cons, ih, mem_cons, Piece.shown.injEq]
  | case2 style params ps ih => simp [ih]
  | case3 style q ps hshown _ ih =>
    have hq : .shown c ≠ q := fun hq => hshown c hq.symm
    rw [ih, mem_cons, or_iff_right hq]
  | case4 => simp

/-- The characters of the runs are those that stand outside the sequences. -/
theorem mem_text_iff {s : Text} {ps : List Piece} (h : Reads s ps) {c : Char} :
    (∃ line ∈ parseAnsi s, ∃ run ∈ line, c ∈ run.text) ↔ .shown c ∈ ps := by
  rw [← mem_styled {}, ← cells_of_reads h]
  constructor
  · rintro ⟨line, hline, run, hrun, hc⟩
    refine mem_map.mpr ⟨(c, run.style), mem_flatMap.mpr ⟨line, hline, ?_⟩, rfl⟩
    exact mem_flatMap.mpr ⟨run, hrun, mem_map_of_mem hc⟩
  · intro hc
    obtain ⟨cell, hcell, rfl⟩ := mem_map.mp hc
    obtain ⟨line, hline, hcell⟩ := mem_flatMap.mp hcell
    obtain ⟨run, hrun, hcell⟩ := mem_flatMap.mp hcell
    obtain ⟨d, hd, rfl⟩ := mem_map.mp hcell
    exact ⟨line, hline, run, hrun, hd⟩

/-- The controls among the characters that stand for themselves. -/
theorem isControl_of_isShown {c : Char} (h : isShown c = true) :
    isControl c = true ↔ c = '\t' ∨ isLateControl c = true := by
  have hshown : c = '\t' ∨ 0x20 ≤ c.toNat := by simpa [isShown] using h
  rcases hshown with rfl | hc
  · decide
  · have htab : c ≠ '\t' := by
      rintro rfl
      revert hc
      decide
    simp only [isControl, isLateControl, htab, false_or, Bool.or_eq_true, Bool.and_eq_true,
      decide_eq_true_eq]
    omega

/-- A text is shown as it should be: no control but the tab is in a run, no style comes from
anything but the selections before it, and the text that is made of complete pieces is all there,
line by line. -/
structure Shows (input : Text) : Prop where
  harmless : ∀ line ∈ parseAnsi input, ∀ run ∈ line, ∀ c ∈ run.text, isControl c = true → c = '\t'
  styles : ∀ ps, Reads input ps → (parseAnsi input).flatMap lineCells = styled {} ps
  faithful : ∀ ps : List Piece, (∀ p ∈ ps, p.Complete) → input = ps.flatMap Piece.source →
    (parseAnsi input).map lineText = segments (visible ps) ∧
      (parseAnsi input).flatMap lineCells = styled {} ps

/-- **Exactly U+007F to U+009F pass**, where they are in no sequence. -/
theorem parseAnsi_shows_iff (input : Text) :
    Shows input ↔ ∀ ps, Reads input ps → ∀ c, .shown c ∈ ps → isLateControl c = false := by
  constructor
  · intro h ps hps c hc
    obtain ⟨line, hline, run, hrun, hc'⟩ := (mem_text_iff hps).mpr hc
    by_contra hlate
    have hlate : isLateControl c = true := by simpa using hlate
    have htab : c = '\t' :=
      h.harmless line hline run hrun c hc'
        ((isControl_of_isShown (hps.isShown hc)).mpr (.inr hlate))
    rw [htab] at hlate
    cases hlate
  · intro h
    refine ⟨?_, fun ps hps => cells_of_reads hps, ?_⟩
    · intro line hline run hrun c hc hcontrol
      obtain ⟨ps, hps⟩ := exists_reads input
      have hmem := (mem_text_iff hps).mp ⟨line, hline, run, hrun, hc⟩
      rcases (isControl_of_isShown (hps.isShown hmem)).mp hcontrol with htab | hlate
      · exact htab
      · rw [h ps hps c hmem] at hlate
        cases hlate
    · rintro ps hcomplete rfl
      have hps := reads_of_complete hcomplete
      exact ⟨lines_of_reads hps, cells_of_reads hps⟩

/-- The control that begins a control sequence goes through to the screen. -/
theorem late_control_passes : ¬ Shows [Char.ofNat 0x9b, '3', '1', 'm'] := by
  have hreads : Reads [Char.ofNat 0x9b, '3', '1', 'm']
      [.shown (Char.ofNat 0x9b), .shown '3', .shown '1', .shown 'm'] :=
    .shown (by decide) (.shown (by decide) (.shown (by decide) (.shown (by decide) .nil)))
  intro h
  obtain ⟨line, hline, run, hrun, hc⟩ := (mem_text_iff hreads (c := Char.ofNat 0x9b)).mpr (by simp)
  exact absurd (h.harmless line hline run hrun _ hc (by decide)) (by decide)

end Thegn.Terminal
