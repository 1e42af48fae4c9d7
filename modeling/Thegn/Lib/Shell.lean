import Thegn.Lib.Text

set_option autoImplicit false

/-! # How a POSIX shell cuts a command into tokens

Words, operators and the numbers before a redirection, with backslash, single and double quotes. A
word keeps its characters without the quoting, each with whether it stands outside quotes;
characters that mean nothing to a later expansion count as quoted (`inert`). The text may have
holes: a `val` stands for a value, taken as literal characters. Comments, expansions and
here-documents are not recognised, and a text that has one is not cut.

Two lexers in step read alike characters alike (`step_chr_rel`), and what a lexer has read stays
(`Commits`).
-/

namespace Thegn.Shell

open Text List

/-- A character of the text, or a value in it. -/
inductive Sym
  | chr (c : Char)
  | val (v : Text)
  deriving DecidableEq

structure WordChar where
  char : Char
  active : Bool
  deriving DecidableEq

inductive Token
  | word (chars : List WordChar)
  | ioNumber (chars : List WordChar)
  | op (text : Text)
  deriving DecidableEq

/-- How a word is written so far: in characters outside quotes, also with values, also quoted. -/
inductive Form
  | bare
  | filled
  | quoted
  deriving DecidableEq

/-- The token that is being read. -/
inductive Cur
  | idle
  | word (chars : List WordChar) (form : Form)
  | op (text : Text)
  deriving DecidableEq

inductive Mode
  | plain
  | single
  | double
  | escaped
  | doubleEscaped
  deriving DecidableEq

structure Lexer where
  tokens : List Token
  cur : Cur
  mode : Mode
  deriving DecidableEq

def Lexer.new : Lexer := { tokens := [], cur := .idle, mode := .plain }

-- `<<-` is not here: no text is cut further than `<<`
def operators : List Text :=
  [['&', '&'], ['|', '|'], [';', ';'], [';', '&'], ['<', '<'], ['>', '>'], ['<', '&'], ['>', '&'],
    ['<', '>'], ['>', '|'], ['&'], ['|'], [';'], ['<'], ['>'], ['('], [')'], ['\n']]

def hereDocument : Text := ['<', '<']

def isBlank (c : Char) : Bool := c == ' ' || c == '\t'

def isDigit (w : WordChar) : Bool := '0' ≤ w.char && w.char ≤ '9'

def isRedirection (c : Char) : Bool := c == '<' || c == '>'

/-- The characters of a value. -/
def literal (v : Text) : List WordChar := v.map fun c => { char := c, active := false }

def quote (_ : Form) : Form := .quoted

def fill : Form → Form
  | .bare => .filled
  | f => f

/-- A finished word; unquoted digits right before a redirection are its number. -/
def wordToken (chars : List WordChar) (form : Form) (delim : Option Char) : Token :=
  if form = .bare ∧ delim.any isRedirection ∧ chars.all isDigit then .ioNumber chars
    else .word chars

def Cur.close (delim : Option Char) : Cur → List Token
  | .idle => []
  | .word chars form => [wordToken chars form delim]
  | .op text => [.op text]

def Lexer.close (s : Lexer) (delim : Option Char) : Lexer :=
  { s with tokens := s.tokens ++ s.cur.close delim, cur := .idle }

/-- The word goes on, or one begins. -/
def Lexer.put (s : Lexer) (chars : List WordChar) (f : Form → Form) : Lexer :=
  match s.cur with
  | .word before form => { s with cur := .word (before ++ chars) (f form) }
  | .idle => { s with cur := .word chars (f .bare) }
  | .op text => { s with tokens := s.tokens ++ [Token.op text], cur := .word chars (f .bare) }

def Cur.isWord : Cur → Bool
  | .word _ _ => true
  | _ => false

section Tokenize

variable (inert : Char → Bool)

/-- A character outside quotes, that does not go on with an operator. -/
def Lexer.fresh (s : Lexer) (c : Char) : Option Lexer :=
  if c = '\\' then some { s with mode := .escaped }
  else if c = '\'' then some { s.put [] quote with mode := .single }
  else if c = '"' then some { s.put [] quote with mode := .double }
  else if c = '$' ∨ c = '`' then none
  else if [c] ∈ operators then some { s.close (some c) with cur := .op [c] }
  else if isBlank c then some (s.close none)
  else if c = '#' ∧ s.cur.isWord = false then none
  else some (s.put [{ char := c, active := !inert c }] id)

def Lexer.plain (s : Lexer) (c : Char) : Option Lexer :=
  match s.cur with
  | .op text =>
    if text ++ [c] = hereDocument then none
    else if text ++ [c] ∈ operators then some { s with cur := .op (text ++ [c]) }
    else s.fresh inert c
  | _ => s.fresh inert c

def Lexer.step (s : Lexer) : Sym → Option Lexer
  | .chr c =>
    match s.mode with
    | .plain => s.plain inert c
    | .escaped =>
      -- a line that goes on leaves no trace
      if c = '\n' then some { s with mode := .plain }
      else some { s.put [{ char := c, active := false }] quote with mode := .plain }
    | .single =>
      if c = '\'' then some { s with mode := .plain }
      else some (s.put [{ char := c, active := false }] quote)
    | .double =>
      if c = '"' then some { s with mode := .plain }
      else if c = '\\' then some { s with mode := .doubleEscaped }
      else if c = '$' ∨ c = '`' then none
      else some (s.put [{ char := c, active := false }] quote)
    | .doubleEscaped =>
      if c = '\n' then some { s with mode := .double }
      else if c = '$' ∨ c = '`' ∨ c = '"' ∨ c = '\\' then
        some { s.put [{ char := c, active := false }] quote with mode := .double }
      else some { s.put (literal ['\\', c]) quote with mode := .double }
  | .val v =>
    match s.mode with
    | .plain => some (s.put (literal v) fill)
    | .escaped => some { s.put (literal v) quote with mode := .plain }
    | .single => some (s.put (literal v) quote)
    | .double => some (s.put (literal v) quote)
    | .doubleEscaped => some { s.put (literal ('\\' :: v)) quote with mode := .double }

def Lexer.run : Lexer → List Sym → Option Lexer
  | s, [] => some s
  | s, x :: xs => (s.step inert x).bind fun t => t.run xs

/-- The tokens at the end of the text, and whether every quote was closed. -/
def Lexer.finish (s : Lexer) : List Token × Bool :=
  match s.mode with
  | .plain => ((s.close none).tokens, true)
  | .escaped => (((s.put (literal ['\\']) quote).close none).tokens, true)
  | .doubleEscaped => (((s.put (literal ['\\']) quote).close none).tokens, false)
  | _ => ((s.close none).tokens, false)

def tokenize (text : List Sym) : Option (List Token × Bool) :=
  (Lexer.new.run inert text).map Lexer.finish

end Tokenize

variable {inert : Char → Bool}

theorem run_append (s : Lexer) (xs ys : List Sym) :
    s.run inert (xs ++ ys) = (s.run inert xs).bind fun t => t.run inert ys := by
  induction xs generalizing s with
  | nil => rfl
  | cons x xs ih =>
    rw [cons_append, Lexer.run, Lexer.run]
    cases s.step inert x with
    | none => rfl
    | some t => exact ih t

theorem run_singleton (s : Lexer) (x : Sym) : s.run inert [x] = s.step inert x := by
  rw [Lexer.run]
  cases s.step inert x with
  | none => rfl
  | some t => rfl

@[simp] theorem put_mode (s : Lexer) (chars : List WordChar) (f : Form → Form) :
    (s.put chars f).mode = s.mode := by
  unfold Lexer.put
  cases s.cur with
  | idle => rfl
  | word before form => rfl
  | op text => rfl

theorem put_put (s : Lexer) (as bs : List WordChar) (f g : Form → Form) :
    (s.put as f).put bs g = s.put (as ++ bs) (g ∘ f) := by
  unfold Lexer.put
  cases s.cur with
  | idle => rfl
  | word before form => simp only [append_assoc, Function.comp_apply]
  | op text => rfl

/-! ## Quotes -/

/-- The mode after a character. -/
def Mode.next : Mode → Char → Mode
  | .plain, c =>
    if c = '\\' then .escaped else if c = '\'' then .single else if c = '"' then .double else .plain
  | .escaped, _ => .plain
  | .single, c => if c = '\'' then .plain else .single
  | .double, c => if c = '"' then .plain else if c = '\\' then .doubleEscaped else .double
  | .doubleEscaped, _ => .double

/-- The mode after a value. -/
def Mode.afterVal : Mode → Mode
  | .escaped => .plain
  | .doubleEscaped => .double
  | mode => mode

theorem fresh_mode {s t : Lexer} {c : Char} (hmode : s.mode = .plain)
    (h : s.fresh inert c = some t) : t.mode = Mode.next .plain c := by
  unfold Lexer.fresh at h
  simp only [Mode.next]
  split_ifs at h ⊢
  all_goals
    cases h
    first
      | rfl
      | exact hmode
      | exact (put_mode _ _ _).trans hmode

theorem operator_chars : operators.all (fun op => op.all fun c =>
    c != '\\' && c != '\'' && c != '"') = true := by
  decide

theorem step_chr_mode {s t : Lexer} {c : Char} (h : s.step inert (.chr c) = some t) :
    t.mode = s.mode.next c := by
  unfold Lexer.step at h
  dsimp only at h
  cases hmode : s.mode with
  | plain =>
    rw [hmode] at h
    dsimp only at h
    unfold Lexer.plain at h
    split at h
    · rename_i text hcur
      split_ifs at h with hhere hop
      · cases h
        have hc := all_eq_true.mp (all_eq_true.mp operator_chars _ hop) c (by simp)
        simp only [Bool.and_eq_true, bne_iff_ne] at hc
        rw [Mode.next, if_neg hc.1.1, if_neg hc.1.2, if_neg hc.2]
        exact hmode
      · exact fresh_mode hmode h
    · exact fresh_mode hmode h
  | escaped =>
    rw [hmode] at h
    dsimp only at h
    split_ifs at h
    all_goals
      cases h
      rfl
  | single =>
    rw [hmode] at h
    dsimp only at h
    simp only [Mode.next]
    split_ifs at h ⊢
    all_goals cases h
    · rfl
    · exact (put_mode _ _ _).trans hmode
  | double =>
    rw [hmode] at h
    dsimp only at h
    simp only [Mode.next]
    split_ifs at h ⊢
    all_goals cases h
    · rfl
    · rfl
    · exact (put_mode _ _ _).trans hmode
  | doubleEscaped =>
    rw [hmode] at h
    dsimp only at h
    split_ifs at h
    all_goals
      cases h
      rfl

theorem step_val_mode {s t : Lexer} {v : Text} (h : s.step inert (.val v) = some t) :
    t.mode = s.mode.afterVal := by
  unfold Lexer.step at h
  dsimp only at h
  cases hmode : s.mode with
  | plain | single | double =>
    rw [hmode] at h
    cases h
    exact (put_mode _ _ _).trans hmode
  | escaped | doubleEscaped =>
    rw [hmode] at h
    cases h
    rfl

/-! ## Two lexers in step -/

section Rel

/-- How words and tokens of two lexers correspond. -/
structure Match where
  word : List WordChar → Form → List WordChar → Form → Prop
  token : Token → Token → Prop
  start : word [] .bare [] .bare
  put : ∀ {as f bs g}, word as f bs g → ∀ cs, word (as ++ cs) f (bs ++ cs) g
  quoted : ∀ {as f bs g}, word as f bs g → ∀ cs, word (as ++ cs) .quoted (bs ++ cs) .quoted
  op : ∀ text, token (.op text) (.op text)

variable (M : Match)

inductive CurRel : Cur → Cur → Prop
  | idle : CurRel .idle .idle
  | word {as bs : List WordChar} {f g : Form} : M.word as f bs g → CurRel (.word as f) (.word bs g)
  | op (text : Text) : CurRel (.op text) (.op text)

structure Rel (s t : Lexer) : Prop where
  tokens : List.Forall₂ M.token s.tokens t.tokens
  cur : CurRel M s.cur t.cur
  mode : s.mode = t.mode

/-- The words being read, if any, correspond when they are finished. -/
def Closes (delim : Option Char) (s t : Lexer) : Prop :=
  ∀ as f bs g, s.cur = .word as f → t.cur = .word bs g →
    M.token (wordToken as f delim) (wordToken bs g delim)

variable {M} {s t : Lexer}

theorem Rel.withMode (h : Rel M s t) (mode : Mode) :
    Rel M { s with mode := mode } { t with mode := mode } :=
  ⟨h.tokens, h.cur, rfl⟩

theorem Rel.close (h : Rel M s t) {delim : Option Char} (hc : Closes M delim s t) :
    Rel M (s.close delim) (t.close delim) := by
  refine ⟨?_, .idle, h.mode⟩
  refine rel_append h.tokens ?_
  have hcur := h.cur
  generalize hs : s.cur = cs at hcur ⊢
  generalize ht : t.cur = ct at hcur ⊢
  cases hcur with
  | idle => exact .nil
  | word hw => exact .cons (hc _ _ _ _ hs ht) .nil
  | op text => exact .cons (M.op text) .nil

/-- Words go on with what corresponds. -/
theorem Rel.put (h : Rel M s t) {cs ds : List WordChar} {f g : Form → Form}
    (hput : ∀ as a bs b, M.word as a bs b → M.word (as ++ cs) (f a) (bs ++ ds) (g b)) :
    Rel M (s.put cs f) (t.put ds g) := by
  obtain ⟨tokens, cur, mode⟩ := s
  obtain ⟨tokens', cur', mode'⟩ := t
  obtain ⟨htokens, hcur, hmode⟩ := h
  dsimp only at htokens hcur hmode
  unfold Lexer.put
  cases hcur with
  | idle => exact ⟨htokens, .word (hput [] .bare [] .bare M.start), hmode⟩
  | word hw => exact ⟨htokens, .word (hput _ _ _ _ hw), hmode⟩
  | op text =>
    exact ⟨rel_append htokens (.cons (M.op text) .nil),
      .word (hput [] .bare [] .bare M.start), hmode⟩

theorem Rel.putQuoted (h : Rel M s t) (cs : List WordChar) :
    Rel M (s.put cs quote) (t.put cs quote) :=
  h.put fun _ _ _ _ hw => M.quoted hw cs

theorem Rel.isWord (h : Rel M s t) : s.cur.isWord = t.cur.isWord := by
  have hcur := h.cur
  generalize s.cur = cs at hcur ⊢
  generalize t.cur = ct at hcur ⊢
  cases hcur with
  | idle => rfl
  | word _ => rfl
  | op _ => rfl

theorem fresh_rel (h : Rel M s t) {c : Char} (hdelim : Closes M (some c) s t)
    (hend : Closes M none s t) : Option.Rel (Rel M) (s.fresh inert c) (t.fresh inert c) := by
  unfold Lexer.fresh
  rw [h.isWord]
  split_ifs
  · exact .some (h.withMode _)
  · exact .some ((h.putQuoted []).withMode _)
  · exact .some ((h.putQuoted []).withMode _)
  · exact .none
  · exact .some ⟨(h.close hdelim).tokens, .op [c], h.mode⟩
  · exact .some (h.close hend)
  · exact .none
  · exact .some (h.put fun _ _ _ _ hw => M.put hw _)

theorem plain_rel (h : Rel M s t) {c : Char} (hdelim : Closes M (some c) s t)
    (hend : Closes M none s t) : Option.Rel (Rel M) (s.plain inert c) (t.plain inert c) := by
  have hfresh : Option.Rel (Rel M) (s.fresh inert c) (t.fresh inert c) := fresh_rel h hdelim hend
  have hcur := h.cur
  unfold Lexer.plain
  generalize hs : s.cur = cs at hcur ⊢
  generalize ht : t.cur = ct at hcur ⊢
  cases hcur with
  | idle => exact hfresh
  | word _ => exact hfresh
  | op text =>
    dsimp only
    split_ifs
    · exact .none
    · exact .some ⟨h.tokens, .op _, h.mode⟩
    · exact hfresh

/-- **Lexers in step stay in step** on a character. -/
theorem step_chr_rel (h : Rel M s t) {c : Char} (hdelim : s.mode = .plain → Closes M (some c) s t)
    (hend : Closes M none s t) :
    Option.Rel (Rel M) (s.step inert (.chr c)) (t.step inert (.chr c)) := by
  unfold Lexer.step
  dsimp only
  rw [← h.mode]
  cases hmode : s.mode with
  | plain => exact plain_rel h (hdelim hmode) hend
  | escaped =>
    dsimp only
    split_ifs
    · exact .some (h.withMode _)
    · exact .some ((h.putQuoted _).withMode _)
  | single =>
    dsimp only
    split_ifs
    · exact .some (h.withMode _)
    · exact .some (h.putQuoted _)
  | double =>
    dsimp only
    split_ifs
    · exact .some (h.withMode _)
    · exact .some (h.withMode _)
    · exact .none
    · exact .some (h.putQuoted _)
  | doubleEscaped =>
    dsimp only
    split_ifs
    · exact .some (h.withMode _)
    · exact .some ((h.putQuoted _).withMode _)
    · exact .some ((h.putQuoted _).withMode _)

theorem finish_rel (h : Rel M s t) (hend : Closes M none s t)
    (hend' : Closes M none (s.put (literal ['\\']) quote) (t.put (literal ['\\']) quote)) :
    List.Forall₂ M.token s.finish.1 t.finish.1 ∧ s.finish.2 = t.finish.2 := by
  unfold Lexer.finish
  rw [← h.mode]
  cases s.mode with
  | plain => exact ⟨(h.close hend).tokens, rfl⟩
  | escaped => exact ⟨((h.putQuoted _).close hend').tokens, rfl⟩
  | single => exact ⟨(h.close hend).tokens, rfl⟩
  | double => exact ⟨(h.close hend).tokens, rfl⟩
  | doubleEscaped => exact ⟨((h.putQuoted _).close hend').tokens, rfl⟩

end Rel

/-! ## What was read stays -/

def Token.chars : Token → List WordChar
  | .word chars => chars
  | .ioNumber chars => chars
  | .op _ => []

theorem wordToken_chars (chars : List WordChar) (form : Form) (delim : Option Char) :
    (wordToken chars form delim).chars = chars := by
  unfold wordToken
  split_ifs
  · rfl
  · rfl

/-- The tokens begin with those that were read, and the one being read is the next. -/
structure Commits (s : Lexer) (ts : List Token) : Prop where
  tokens : s.tokens <+: ts
  word : ∀ {cs f}, s.cur = .word cs f → ∃ tok rest, ts = s.tokens ++ tok :: rest ∧ cs <+: tok.chars

variable {s t : Lexer} {ts : List Token}

theorem Commits.withMode {mode : Mode} (h : Commits { s with mode := mode } ts) : Commits s ts :=
  ⟨h.tokens, h.word⟩

theorem Commits.of_put {cs : List WordChar} {f : Form → Form} (h : Commits (s.put cs f) ts) :
    Commits s ts := by
  obtain ⟨tokens, cur, mode⟩ := s
  unfold Lexer.put at h
  cases cur with
  | idle =>
    refine ⟨h.tokens, ?_⟩
    intro cs f hcur
    cases hcur
  | word before form =>
    refine ⟨h.tokens, ?_⟩
    intro cs' f' hcur
    cases hcur
    obtain ⟨tok, rest, hts, hpre⟩ := h.word rfl
    exact ⟨tok, rest, hts, (prefix_append before cs).trans hpre⟩
  | op text =>
    refine ⟨(prefix_append tokens _).trans h.tokens, ?_⟩
    intro cs f hcur
    cases hcur

theorem Commits.of_close {delim : Option Char}
    (h : s.tokens ++ s.cur.close delim <+: ts) : Commits s ts := by
  obtain ⟨tokens, cur, mode⟩ := s
  dsimp only at h
  refine ⟨(prefix_append tokens _).trans h, ?_⟩
  intro cs f hcur
  cases hcur
  obtain ⟨rest, rfl⟩ := h
  refine ⟨wordToken cs f delim, rest, by simp [Cur.close], ?_⟩
  rw [wordToken_chars]

/-- A step does not take back what was read. -/
theorem Commits.of_fresh {c : Char} (hstep : s.fresh inert c = some t) (h : Commits t ts) :
    Commits s ts := by
  unfold Lexer.fresh at hstep
  split_ifs at hstep
  · cases hstep
    exact h.withMode
  · cases hstep
    exact h.withMode.of_put
  · cases hstep
    exact h.withMode.of_put
  · cases hstep
    exact .of_close h.tokens
  · cases hstep
    exact .of_close h.tokens
  · cases hstep
    exact h.of_put

theorem Commits.of_step {x : Sym} (hstep : s.step inert x = some t) (h : Commits t ts) :
    Commits s ts := by
  cases x with
  | val v =>
    unfold Lexer.step at hstep
    dsimp only at hstep
    split at hstep
    all_goals cases hstep
    · exact h.of_put
    · exact h.withMode.of_put
    · exact h.of_put
    · exact h.of_put
    · exact h.withMode.of_put
  | chr c =>
    unfold Lexer.step at hstep
    dsimp only at hstep
    split at hstep
    · unfold Lexer.plain at hstep
      split at hstep
      · rename_i text hcur
        split_ifs at hstep
        · cases hstep
          refine ⟨h.tokens, ?_⟩
          intro cs f hcur'
          rw [hcur] at hcur'
          cases hcur'
        · exact h.of_fresh hstep
      · exact h.of_fresh hstep
    all_goals
      split_ifs at hstep
      all_goals
        cases hstep
        first
          | exact h.withMode
          | exact h.withMode.of_put

theorem Commits.of_run {xs : List Sym} (hrun : s.run inert xs = some t) (h : Commits t ts) :
    Commits s ts := by
  induction xs generalizing s with
  | nil =>
    cases hrun
    exact h
  | cons x xs ih =>
    obtain ⟨u, hstep, hrest⟩ := Option.bind_eq_some_iff.mp hrun
    exact (ih hrest).of_step hstep

theorem commits_finish (s : Lexer) : Commits s s.finish.1 := by
  unfold Lexer.finish
  cases s.mode with
  | plain => exact .of_close (prefix_refl _)
  | escaped => exact .of_put (.of_close (prefix_refl _))
  | single => exact .of_close (prefix_refl _)
  | double => exact .of_close (prefix_refl _)
  | doubleEscaped => exact .of_put (.of_close (prefix_refl _))

end Thegn.Shell
