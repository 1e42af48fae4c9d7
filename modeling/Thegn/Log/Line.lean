import Thegn.Log.Redact

set_option autoImplicit false

/-! # Redacting a log line

`redact_text_line` in `thegn-core/src/log_redact.rs`: the words of a line are redacted as the
arguments of a command, and the outcome is redacted field by field. The first pass swaps words
(`firstPass_eq`), and the second one swaps the secrets of fields; a line gets through both exactly
when no name that the second one comes to begins right behind a white space of several bytes
(`redacted_iff`).
-/

namespace Thegn.Log

open Text Splice List Option

/-! ## The words of a line -/

/-- The first loop of `redact_text_line`, at byte `idx`; a word may have begun. -/
def wordRanges (idx : Nat) (start : Option Nat) : Text → List (Nat × Nat)
  | [] => start.toList.map fun start => (start, idx)
  | c :: t =>
    if isWhitespace c then (start.toList.map fun start => (start, idx)) ++
      wordRanges (idx + charLen c) none t
    else wordRanges (idx + charLen c) (some (start.getD idx)) t

/-- The second loop, from the range with number `i` on; the line is written as far as `cursor`. -/
def rebuild (line : Text) (redacted : List Text) (cursor i : Nat) : List (Nat × Nat) → Option Text
  | [] => sliceFrom line cursor
  | (start, stop) :: ranges => do
      let gap ← slice line cursor start
      let word ← redacted[i + 1]?
      return gap ++ (word ++ (← rebuild line redacted stop (i + 1) ranges))

/-- The words are redacted as arguments behind a made-up program. -/
def firstPass (line : Text) : Option Text := do
  let ranges := wordRanges 0 none line
  let words ← ranges.mapM fun (start, stop) => slice line start stop
  rebuild line (redactArgv ("<line>".toList :: words)) 0 0 ranges

def redactTextLine (line : Text) : Option Text :=
  if wordRanges 0 none line = [] then some line else do redactDelimitedFields (← firstPass line)

/-! ## Words, character by character -/

/-- A word and the white space before it. -/
structure Word where
  gap : Text
  text : Text

/-- The words of a line, and the white space behind them. -/
def wordsOf (line : Text) : List Word × Text :=
  match _h : line.dropWhile isWhitespace with
  | [] => ([], line)
  | c :: t =>
    let rest := wordsOf ((c :: t).dropWhile (!isWhitespace ·))
    (⟨line.takeWhile isWhitespace, (c :: t).takeWhile (!isWhitespace ·)⟩ :: rest.1, rest.2)
termination_by line.length
decreasing_by
  have hspace := (dropWhile_suffix (l := line) isWhitespace).length_le
  have hc : isWhitespace c = false := by
    have := List.head?_dropWhile_not isWhitespace line
    rw [_h] at this
    simpa using this
  rw [_h] at hspace
  rw [dropWhile_cons_of_pos (by simp [hc])]
  have hword := (dropWhile_suffix (l := t) (!isWhitespace ·)).length_le
  rw [length_cons] at hspace
  omega

/-- A word as pieces: its value is swapped, and a flag makes the next word a value. -/
def tokenPieces (redactNext : Bool) (tok : Text) : List (Piece Char) :=
  if redactNext && !startsWith tok ['-'] then [.swap tok redacted]
  else
    match splitOnce ['='] tok with
    | some (lhs, rhs) =>
      if isSensitiveKey (trimDashes lhs) && !(trimDashes lhs).any (· ∈ urlChars) then
        [.keep (lhs ++ ['=']), .swap rhs redacted]
      else [.keep tok]
    | none => [.keep tok]

def wordPieces (redactNext : Bool) : List Word → List (Piece Char)
  | [] => []
  | w :: words =>
    .keep w.gap :: (tokenPieces redactNext w.text ++
      wordPieces (redactToken redactNext w.text).2 words)

/-- The line with its arguments masked. -/
def argPieces (line : Text) : List (Piece Char) :=
  wordPieces false (wordsOf line).1 ++ [Piece.keep (wordsOf line).2]

def maskArgs (line : Text) : Text := newOf (argPieces line)

/-! ## The first pass swaps words -/

/-- A line, from its words. -/
def joined (words : List Word) : Text := words.flatMap fun w => w.gap ++ w.text

theorem joined_cons (w : Word) (words : List Word) :
    joined (w :: words) = w.gap ++ (w.text ++ joined words) := by
  rw [joined, List.flatMap_cons, append_assoc]
  rfl

/-- The ranges of words that begin at `pos`. -/
def rangesFrom (pos : Nat) : List Word → List (Nat × Nat)
  | [] => []
  | w :: words =>
    (pos + byteLen w.gap, pos + byteLen w.gap + byteLen w.text) ::
      rangesFrom (pos + byteLen w.gap + byteLen w.text) words

/-- The words with others in their places. -/
def weave : List Word → List Text → Text
  | w :: words, text :: texts => w.gap ++ (text ++ weave words texts)
  | _, _ => []

section

variable {line : Text}

theorem wordsOf_nil (h : line.dropWhile isWhitespace = []) : wordsOf line = ([], line) := by
  rw [wordsOf]
  split
  case h_1 => rfl
  case h_2 heq => cases h.symm.trans heq

theorem wordsOf_cons {c : Char} {t : Text} (h : line.dropWhile isWhitespace = c :: t) :
    wordsOf line =
      (⟨line.takeWhile isWhitespace, (c :: t).takeWhile (!isWhitespace ·)⟩ ::
          (wordsOf ((c :: t).dropWhile (!isWhitespace ·))).1,
        (wordsOf ((c :: t).dropWhile (!isWhitespace ·))).2) := by
  rw [wordsOf]
  split
  case h_1 heq => cases h.symm.trans heq
  case h_2 heq =>
    cases h.symm.trans heq
    rfl

end

theorem joined_wordsOf (line : Text) : joined (wordsOf line).1 ++ (wordsOf line).2 = line := by
  induction line using wordsOf.induct with
  | case1 line h => rw [wordsOf_nil h]; rfl
  | case2 line c t h ih =>
    have hword := takeWhile_append_dropWhile (p := (!isWhitespace ·)) (l := c :: t)
    rw [wordsOf_cons h, joined_cons, append_assoc, append_assoc, ih, hword, ← h,
      takeWhile_append_dropWhile]

theorem wordRanges_gap {g : Text} (hg : ∀ c ∈ g, isWhitespace c = true) (pos : Nat) (t : Text) :
    wordRanges pos none (g ++ t) = wordRanges (pos + byteLen g) none t := by
  induction g generalizing pos with
  | nil => rfl
  | cons c g ih =>
    rw [cons_append, wordRanges, if_pos (hg c mem_cons_self),
      ih fun d hd => hg d (mem_cons_of_mem c hd), byteLen_cons, Nat.add_assoc]
    rfl

theorem wordRanges_word {w : Text} (hw : ∀ c ∈ w, isWhitespace c = false) {t : Text}
    (ht : ∀ c ∈ t.head?, isWhitespace c = true) (pos start : Nat) :
    wordRanges pos (some start) (w ++ t) = (start, pos + byteLen w) ::
      wordRanges (pos + byteLen w) none t := by
  induction w generalizing pos with
  | nil =>
    cases t with
    | nil => rfl
    | cons c t =>
      have hc := ht c rfl
      rw [nil_append, wordRanges, if_pos hc, wordRanges, if_pos hc]
      rfl
  | cons c w ih =>
    rw [cons_append, wordRanges, if_neg (by simp [hw c mem_cons_self]), byteLen_cons,
      ← Nat.add_assoc]
    exact ih (fun d hd => hw d (mem_cons_of_mem c hd)) _

/-- The scan finds the words. -/
theorem wordRanges_eq (line : Text) (pos : Nat) :
    wordRanges pos none line = rangesFrom pos (wordsOf line).1 := by
  induction line using wordsOf.induct generalizing pos with
  | case1 line h =>
    have hspace := dropWhile_eq_nil_iff.mp h
    have hgap := wordRanges_gap hspace pos []
    rw [append_nil] at hgap
    rw [hgap, wordsOf_nil h]
    rfl
  | case2 line c t h ih =>
    have hspace : ∀ d ∈ line.takeWhile isWhitespace, isWhitespace d = true :=
      fun d hd => mem_takeWhile_imp hd
    have hword : ∀ d ∈ (c :: t).takeWhile (!isWhitespace ·), isWhitespace d = false := by
      intro d hd
      simpa using mem_takeWhile_imp hd
    have hbehind : ∀ d ∈ ((c :: t).dropWhile (!isWhitespace ·)).head?, isWhitespace d = true := by
      intro d hd
      have := List.head?_dropWhile_not (!isWhitespace ·) (c :: t)
      rw [mem_def.mp hd] at this
      simpa using this
    have hc : isWhitespace c = false := by
      have := List.head?_dropWhile_not isWhitespace line
      rw [h] at this
      simpa using this
    have hfirst : ∀ pos, wordRanges pos none (c :: t) = wordRanges pos (some pos) (c :: t) := by
      intro pos
      rw [wordRanges, wordRanges, if_neg (by simp [hc]), if_neg (by simp [hc])]
      rfl
    have hrun := wordRanges_word hword hbehind
    rw [takeWhile_append_dropWhile] at hrun
    conv_lhs => rw [← takeWhile_append_dropWhile (p := isWhitespace) (l := line)]
    rw [wordRanges_gap hspace, h, hfirst, hrun, ih, wordsOf_cons h]
    rfl

theorem mapM_slice (a tail : Text) (words : List Word) :
    (rangesFrom (byteLen a) words).mapM (fun (start, stop) =>
      slice (a ++ (joined words ++ tail)) start stop) = some (words.map Word.text) := by
  induction words generalizing a with
  | nil => rfl
  | cons w words ih =>
    have hline : a ++ (joined (w :: words) ++ tail) = a ++ w.gap ++
      (w.text ++ (joined words ++ tail)) := by
      simp [joined_cons]
    have hrest := ih (a ++ w.gap ++ w.text)
    have hword := slice_append (a ++ w.gap) w.text (joined words ++ tail)
    rw [append_assoc _ w.text, ← hline, byteLen_append, byteLen_append a] at hrest
    rw [← hline, byteLen_append _ w.text, byteLen_append a] at hword
    rw [rangesFrom, mapM_cons, hrest]
    dsimp only
    rw [hword]
    rfl

theorem rebuild_append (a tail : Text) (words : List Word) {texts redacted : List Text} {i : Nat}
    (hlen : texts.length = words.length) (htexts : redacted.drop (i + 1) = texts) :
    rebuild (a ++ (joined words ++ tail)) redacted (byteLen a) i (rangesFrom (byteLen a) words) =
      some (weave words texts ++ tail) := by
  induction words generalizing a texts i with
  | nil =>
    rw [eq_nil_of_length_eq_zero hlen]
    exact sliceFrom_append a tail
  | cons w words ih =>
    cases texts with
    | nil => cases hlen
    | cons text texts =>
      have hline : a ++ (joined (w :: words) ++ tail) = a ++ w.gap ++
        (w.text ++ (joined words ++ tail)) := by
        simp [joined_cons]
      have hget : redacted[i + 1]? = some text := by
        rw [← List.head?_drop, htexts]
        rfl
      have hdrop : redacted.drop (i + 1 + 1) = texts := by
        rw [← drop_drop, htexts]
        rfl
      have hgap := slice_append a w.gap (w.text ++ (joined words ++ tail))
      have hrest := ih (a ++ w.gap ++ w.text) (Nat.succ.inj hlen) hdrop
      rw [append_assoc _ w.text, ← hline, byteLen_append, byteLen_append a] at hrest
      rw [← append_assoc, ← hline, byteLen_append] at hgap
      rw [rangesFrom, rebuild, hgap, hget, hrest, weave, append_assoc, append_assoc]
      rfl

theorem redactTokens_length (redactNext : Bool) (toks : List Text) :
    (redactTokens redactNext toks).length = toks.length := by
  induction toks generalizing redactNext with
  | nil => rfl
  | cons tok toks ih => rw [redactTokens, length_cons, length_cons, ih]

theorem oldOf_tokenPieces (redactNext : Bool) (tok : Text) :
    oldOf (tokenPieces redactNext tok) = tok := by
  unfold tokenPieces
  split_ifs
  · simp [Piece.old]
  · split
    case h_1 lhs rhs heq =>
      have htok := splitOnce_eq_some heq
      split_ifs
      · simp [Piece.old, htok]
      · simp [Piece.old]
    case h_2 => simp [Piece.old]

theorem newOf_tokenPieces (redactNext : Bool) (tok : Text) :
    newOf (tokenPieces redactNext tok) = (redactToken redactNext tok).1 := by
  unfold tokenPieces redactToken
  by_cases hvalue : (redactNext && !startsWith tok ['-']) = true
  · rw [if_pos hvalue, if_pos hvalue]
    rfl
  rw [if_neg hvalue, if_neg hvalue]
  cases hsplit : splitOnce ['='] tok with
  | none => exact append_nil tok
  | some p =>
    dsimp only
    by_cases hkey : (isSensitiveKey (trimDashes p.1) && !(trimDashes p.1).any (· ∈ urlChars)) = true
    · rw [if_pos hkey, if_pos hkey]
      simp [Piece.new]
    · rw [if_neg hkey, if_neg hkey]
      exact append_nil tok

theorem masked_tokenPieces (redactNext : Bool) (tok : Text) :
    Masked (tokenPieces redactNext tok) := by
  intro old new hmem
  unfold tokenPieces at hmem
  split_ifs at hmem
  · simp at hmem
    exact hmem.2
  · split at hmem
    · split_ifs at hmem
      · simp at hmem
        exact hmem.2
      · simp at hmem
    · simp at hmem

theorem oldOf_wordPieces (redactNext : Bool) (words : List Word) :
    oldOf (wordPieces redactNext words) = joined words := by
  induction words generalizing redactNext with
  | nil => rfl
  | cons w words ih =>
    rw [wordPieces, oldOf_cons, oldOf_append, oldOf_tokenPieces, ih, joined_cons]
    rfl

theorem newOf_wordPieces (redactNext : Bool) (words : List Word) :
    newOf (wordPieces redactNext words) =
      weave words (redactTokens redactNext (words.map Word.text)) := by
  induction words generalizing redactNext with
  | nil => rfl
  | cons w words ih =>
    rw [wordPieces, newOf_cons, newOf_append, newOf_tokenPieces, ih, map_cons, redactTokens, weave]
    rfl

theorem masked_wordPieces (redactNext : Bool) (words : List Word) :
    Masked (wordPieces redactNext words) := by
  induction words generalizing redactNext with
  | nil =>
    intro old new hmem
    cases hmem
  | cons w words ih =>
    intro old new hmem
    rcases mem_cons.mp hmem with hgap | hmem
    · cases hgap
    rcases mem_append.mp hmem with htoken | hrest
    · exact masked_tokenPieces redactNext w.text old new htoken
    · exact ih _ old new hrest

theorem oldOf_argPieces (line : Text) : oldOf (argPieces line) = line := by
  rw [argPieces, oldOf_append, oldOf_wordPieces]
  simpa [Piece.old] using joined_wordsOf line

theorem masked_argPieces (line : Text) : Masked (argPieces line) := by
  intro old new hmem
  rcases mem_append.mp hmem with hword | hend
  · exact masked_wordPieces false _ old new hword
  · simp at hend

/-- **The first pass never stops, and it swaps the values of arguments.** -/
theorem firstPass_eq (line : Text) : firstPass line = some (maskArgs line) := by
  have hline := joined_wordsOf line
  have hslices := mapM_slice [] (wordsOf line).2 (wordsOf line).1
  have hdrop : (redactArgv ("<line>".toList :: (wordsOf line).1.map Word.text)).drop 1 =
      redactTokens false ((wordsOf line).1.map Word.text) := rfl
  have hrebuild := rebuild_append [] (wordsOf line).2 (wordsOf line).1
    ((redactTokens_length false _).trans (length_map _)) hdrop
  rw [nil_append, hline, byteLen_nil] at hslices hrebuild
  rw [firstPass, wordRanges_eq, hslices, bind_eq_bind, bind_some, hrebuild, maskArgs, argPieces,
    newOf_append, newOf_wordPieces]
  simp [Piece.new]

theorem mem_newOf {ps : List (Piece Char)} (h : Masked ps) {c : Char} (hc : c ∈ newOf ps) :
    c ∈ oldOf ps ∨ c ∈ redacted := by
  induction ps with
  | nil => cases hc
  | cons p ps ih =>
    rw [newOf_cons] at hc
    rw [oldOf_cons]
    rcases mem_append.mp hc with hc | hc
    · cases p with
      | keep xs => exact .inl (mem_append_left _ hc)
      | swap old new =>
        have hnew : new = redacted := h old new (.head _)
        rw [← hnew]
        exact .inr hc
    · rcases ih (fun old new hmem => h old new (mem_cons_of_mem p hmem)) hc with hc | hc
      · exact .inl (mem_append_right _ hc)
      · exact .inr hc

theorem mem_maskArgs {line : Text} {c : Char} (hc : c ∈ maskArgs line) :
    c ∈ line ∨ c ∈ redacted := by
  have hmem := mem_newOf (masked_argPieces line) hc
  rwa [oldOf_argPieces] at hmem

/-! ## Both passes -/

/-- A line of white space has no fields. -/
theorem fields_of_space {line : Text} (h : ∀ c ∈ line, isWhitespace c = true) :
    visits [] line = [] ∧ fields [] line = [.keep line] := by
  have hnone : splitField [] line = none := by
    have hdelimiter : line.dropWhile (!isDelimiter ·) = [] := by
      rw [dropWhile_eq_nil_iff]
      intro c hc
      have hspace := h c hc
      by_contra hnot
      have hd : isDelimiter c = true := by simpa using hnot
      rcases (by simpa [isDelimiter] using hd : c = ':' ∨ c = '=') with rfl | rfl
      · exact absurd hspace (by decide)
      · exact absurd hspace (by decide)
    rw [splitField, hdelimiter]
  exact ⟨visits_none hnone, fields_none hnone⟩

/-- **What becomes of a line.** -/
theorem redactTextLine_eq (line : Text) :
    redactTextLine line =
      if ∀ name ∈ visits [] (maskArgs line), ¬ BreaksCharacter name
        then some (newOf (fields [] (maskArgs line))) else none := by
  unfold redactTextLine
  by_cases hnil : wordRanges 0 none line = []
  · have hspace : ∀ c ∈ line, isWhitespace c = true := by
      rw [wordRanges_eq] at hnil
      cases hdrop : line.dropWhile isWhitespace with
      | nil => exact dropWhile_eq_nil_iff.mp hdrop
      | cons c t =>
        rw [wordsOf_cons hdrop] at hnil
        cases hnil
    have hmask : maskArgs line = line := by
      rw [maskArgs, argPieces, wordsOf_nil (dropWhile_eq_nil_iff.mpr hspace)]
      exact append_nil line
    obtain ⟨hvisits, hfields⟩ := fields_of_space hspace
    rw [if_pos hnil, hmask, hvisits, hfields, if_pos (by simp)]
    exact congrArg some (append_nil line).symm
  · rw [if_neg hnil, firstPass_eq, bind_eq_bind, bind_some, redactDelimitedFields_eq]

/-- The line is cut into what is kept, in its order, and what is swapped for the placeholder, and so
is the outcome of the first pass. -/
structure Masks (line out : Text) : Prop where
  args_cut : oldOf (argPieces line) = line
  args_masked : Masked (argPieces line)
  fields_cut : oldOf (fields [] (newOf (argPieces line))) = newOf (argPieces line)
  fields_masked : Masked (fields [] (newOf (argPieces line)))
  out_eq : out = newOf (fields [] (newOf (argPieces line)))

theorem masks_fields (line : Text) : Masks line (newOf (fields [] (maskArgs line))) where
  args_cut := oldOf_argPieces line
  args_masked := masked_argPieces line
  fields_cut := oldOf_fields [] _
  fields_masked := masked_fields [] _
  out_eq := rfl

/-- **A line is redacted exactly when no name before a delimiter that the scan comes to begins right
behind a white space of several bytes.** -/
theorem redacted_iff (line : Text) :
    (∃ out, redactTextLine line = some out ∧ Masks line out) ↔
    ∀ name ∈ visits [] (maskArgs line), ¬ BreaksCharacter name := by
  constructor
  · rintro ⟨out, hout, -⟩
    by_contra hbreaks
    rw [redactTextLine_eq, if_neg hbreaks] at hout
    cases hout
  · intro hall
    refine ⟨_, ?_, masks_fields line⟩
    rw [redactTextLine_eq, if_pos hall]

/-- A colon behind a narrow no-break space stops the program. -/
theorem narrow_space_stops : ¬ ∃ out, redactTextLine "Erreur\u202f: x".toList = some out := by
  have hwords : wordsOf "Erreur\u202f: x".toList =
    ([⟨[], "Erreur".toList⟩, ⟨"\u202f".toList, ":".toList⟩, ⟨" ".toList, "x".toList⟩], []) := by
    rw [wordsOf_cons (c := 'E') (t := "rreur\u202f: x".toList) (by decide),
      wordsOf_cons (c := ':') (t := " x".toList) (by decide),
      wordsOf_cons (c := 'x') (t := []) (by decide), wordsOf_nil (by decide)]
    rfl
  have hmask : maskArgs "Erreur\u202f: x".toList = "Erreur\u202f: x".toList := by
    rw [maskArgs, argPieces, hwords]
    decide
  rintro ⟨out, hout⟩
  rw [redactTextLine_eq, hmask, visits_some
    (f := ⟨"Erreur\u202f".toList, "Erreur\u202f:".toList, [], " x".toList⟩) rfl, if_neg] at hout
  · cases hout
  · intro hall
    exact hall _ (.head _) (by decide)

end Thegn.Log
