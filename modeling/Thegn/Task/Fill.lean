import Thegn.Task.Command

set_option autoImplicit false

/-! # Reading a filled template

A value that is put in with `sh_quote` outside of quotes is read as its characters (`run_shQuote`),
so a filled template and the template with literal values are read alike (`run_fill`), up to two
places: right after a backslash, and in a token of digits and placeholders right before a
redirection.
-/

namespace Thegn.Task

open Text Shell List

/-! ## Where values are not safe -/

/-- A value right after a backslash, or as all of a number before a redirection but its digits. -/
def hazard (s : Lexer) : Sym → Bool
  | .val _ => s.mode == .escaped
  | .chr c =>
    s.mode == .plain && isRedirection c &&
      match s.cur with
      | .word chars .filled => chars.all isDigit
      | _ => false

def clean (s : Lexer) : List Sym → Bool
  | [] => true
  | x :: xs =>
    !hazard s x &&
      match s.step isBareChar x with
      | some t => clean t xs
      | none => true

/-- No placeholder of the template is in an unsafe place. -/
def CleanTemplate (template : Text) : Prop :=
  clean .new (commandSyms (fun _ => []) (piecesOf template)) = true

/-- The template has no comment, expansion or here-document. -/
def PlainTemplate (template : Text) : Prop :=
  (Lexer.new.run isBareChar (commandSyms (fun _ => []) (piecesOf template))).isSome = true

/-! ## Reading a quoted value -/

theorem operators_no_bareChar : operators.all (fun op => op.all fun c => !isBareChar c) = true := by
  decide

theorem operators_no_quote : operators.all (fun op => op.all fun c => c != '\'') = true := by
  decide

theorem not_operator_of_all {p : Char → Bool} (h : operators.all (fun op => op.all p) = true)
    {text : Text} {c : Char} (hc : p c = false) : text ++ [c] ∉ operators := by
  intro hmem
  have hall := all_eq_true.mp (all_eq_true.mp h _ hmem) c (by simp)
  rw [hc] at hall
  cases hall

theorem hereDocument_mem : hereDocument ∈ operators := by decide

/-- A character that no operator has begins or goes on with something else. -/
theorem plain_eq_fresh {s : Lexer} {c : Char} (h : ∀ text : Text, text ++ [c] ∉ operators) :
    s.plain isBareChar c = s.fresh isBareChar c := by
  unfold Lexer.plain
  cases s.cur with
  | idle => rfl
  | word _ _ => rfl
  | op text =>
    dsimp only
    rw [if_neg, if_neg (h text)]
    intro heq
    exact h text (heq ▸ hereDocument_mem)

/-- The characters with a meaning to `fresh` are not bare. -/
def freshSpecial : List Char := ['\\', '\'', '"', '$', '`', ' ', '\t', '#']

theorem freshSpecial_not_bareChar : freshSpecial.all (fun c => !isBareChar c) = true := by
  decide

theorem step_bareChar {s : Lexer} (hmode : s.mode = .plain) {c : Char} (hc : isBareChar c = true) :
    s.step isBareChar (.chr c) = some (s.put (literal [c]) id) := by
  have hno : ∀ text : Text, text ++ [c] ∉ operators := fun text =>
    not_operator_of_all operators_no_bareChar (by rw [hc]; rfl)
  have hne : ∀ d ∈ freshSpecial, c ≠ d := by
    intro d hd heq
    have hnot := all_eq_true.mp freshSpecial_not_bareChar d hd
    rw [← heq, hc] at hnot
    cases hnot
  have hblank : ¬ isBlank c = true := by
    rw [isBlank, Bool.or_eq_true, beq_iff_eq, beq_iff_eq, not_or]
    exact ⟨hne ' ' (by decide), hne '\t' (by decide)⟩
  have hexpand : ¬ (c = '$' ∨ c = '`') := by
    rw [not_or]
    exact ⟨hne '$' (by decide), hne '`' (by decide)⟩
  unfold Lexer.step
  dsimp only
  rw [hmode]
  dsimp only
  rw [plain_eq_fresh hno, Lexer.fresh, if_neg (hne '\\' (by decide)), if_neg (hne '\'' (by decide)),
    if_neg (hne '"' (by decide)), if_neg hexpand,
    if_neg (show [c] ∉ operators from hno []), if_neg hblank,
    if_neg (fun h => hne '#' (by decide) h.1), hc]
  rfl

theorem run_bare {v : Text} (hv : v.all isBareChar = true) {s : Lexer} (hmode : s.mode = .plain)
    (hne : v ≠ []) : s.run isBareChar (v.map .chr) = some (s.put (literal v) id) := by
  induction v generalizing s with
  | nil => exact absurd rfl hne
  | cons c v ih =>
    rw [all_cons, Bool.and_eq_true] at hv
    rw [map_cons, Lexer.run, step_bareChar hmode hv.1, Option.bind_some]
    by_cases hrest : v = []
    · subst hrest
      rfl
    · rw [ih hv.2 (by rw [put_mode, hmode]) hrest, put_put]
      rfl

/-- One character of a value inside its quotes. -/
theorem run_quoteChar {s : Lexer} (hmode : s.mode = .single) {cs : List WordChar} {f : Form}
    (hcur : s.cur = .word cs f) (c : Char) :
    s.run isBareChar ((if c = '\'' then ['\'', '\\', '\'', '\''] else [c]).map .chr) =
      some { s with cur := .word (cs ++ literal [c]) .quoted } := by
  obtain ⟨tokens, cur, mode⟩ := s
  dsimp only at hmode hcur
  subst hmode hcur
  split_ifs with hc
  · subst hc
    change some (Lexer.mk tokens (.word ((cs ++ literal ['\'']) ++ []) .quoted) .single) = _
    rw [append_nil]
  · have hstep : Lexer.step isBareChar ⟨tokens, .word cs f, .single⟩ (.chr c) =
        some ⟨tokens, .word (cs ++ literal [c]) .quoted, .single⟩ := by
      unfold Lexer.step
      dsimp only
      rw [if_neg hc]
      rfl
    rw [map_cons, Lexer.run, hstep]
    rfl

theorem run_quoteChars (v : Text) {tokens : List Token} {cs : List WordChar} :
    Lexer.run isBareChar ⟨tokens, .word cs .quoted, .single⟩
      ((v.flatMap fun c => if c = '\'' then ['\'', '\\', '\'', '\''] else [c]).map .chr) =
      some ⟨tokens, .word (cs ++ literal v) .quoted, .single⟩ := by
  induction v generalizing cs with
  | nil =>
    rw [literal, map_nil, append_nil]
    rfl
  | cons c v ih =>
    rw [List.flatMap_cons, map_append, run_append, run_quoteChar rfl rfl c, Option.bind_some, ih,
      append_assoc]
    rfl

/-- Whether a value is put in without quotes. -/
def isBare (v : Text) : Prop := v ≠ [] ∧ v.all isBareChar = true

/-- **A quoted value is read as its characters.** -/
theorem run_shQuote {s : Lexer} (hmode : s.mode = .plain) (v : Text) :
    ∃ f, (f = id ∨ f = quote) ∧ (isBare v → f = id) ∧
      s.run isBareChar ((shQuote v).map .chr) = some (s.put (literal v) f) := by
  unfold shQuote
  split_ifs with hbare
  · exact ⟨id, .inl rfl, fun _ => rfl, run_bare hbare.2 hmode hbare.1⟩
  · refine ⟨quote, .inr rfl, fun h => absurd h hbare, ?_⟩
    have hopen : s.step isBareChar (.chr '\'') = some { s.put [] quote with mode := .single } := by
      unfold Lexer.step
      dsimp only
      rw [hmode]
      dsimp only
      rw [plain_eq_fresh fun text => not_operator_of_all operators_no_quote (by decide)]
      rfl
    have hcur : ∃ tokens cs, { s.put [] quote with mode := .single } =
        Lexer.mk tokens (.word cs .quoted) .single ∧
        s.put (literal v) quote = ⟨tokens, .word (cs ++ literal v) .quoted, .plain⟩ := by
      obtain ⟨tokens, cur, mode⟩ := s
      dsimp only at hmode
      subst hmode
      cases cur with
      | idle => exact ⟨tokens, [], rfl, rfl⟩
      | word cs f =>
        refine ⟨tokens, cs, ?_, rfl⟩
        rw [Lexer.put]
        simp only [append_nil]
        rfl
      | op text => exact ⟨tokens ++ [Token.op text], [], rfl, rfl⟩
    obtain ⟨tokens, cs, hopen', hput⟩ := hcur
    rw [cons_append, map_cons, Lexer.run, hopen, Option.bind_some, hopen', map_append,
      run_append, run_quoteChars, hput]
    rfl

/-! ## The shape of a template -/

/-- A token without its characters. -/
inductive Kind
  | word
  | ioNumber
  | op (text : Text)
  deriving DecidableEq

def kindOf : Token → Kind
  | .word _ => .word
  | .ioNumber _ => .ioNumber
  | .op text => .op text

/-- The same text with other values; `digits` says that the values on the left are digits. -/
def shapeMatch (digits : Prop) : Match where
  word as f bs g :=
    f = g ∧ (f = .bare → as = bs) ∧ (as.all isDigit = true → bs.all isDigit = true) ∧
    (digits → bs.all isDigit = true → as.all isDigit = true)
  token x y := kindOf x = kindOf y
  start := ⟨rfl, fun _ => rfl, fun h => h, fun _ h => h⟩
  put := by
    rintro as f bs g ⟨rfl, hbare, hdigit, hdigit'⟩ cs
    simp only [all_append, Bool.and_eq_true]
    exact ⟨trivial, fun h => by rw [hbare h], fun h => ⟨hdigit h.1, h.2⟩,
      fun hd h => ⟨hdigit' hd h.1, h.2⟩⟩
  quoted := by
    rintro as f bs g ⟨rfl, _, hdigit, hdigit'⟩ cs
    simp only [all_append, Bool.and_eq_true]
    exact ⟨trivial, fun h => (by cases h), fun h => ⟨hdigit h.1, h.2⟩,
      fun hd h => ⟨hdigit' hd h.1, h.2⟩⟩
  op _ := rfl

theorem wordToken_of_ne_bare {chars : List WordChar} {f : Form} (h : f ≠ .bare)
    (delim : Option Char) : wordToken chars f delim = .word chars :=
  if_neg fun hio => h hio.1

theorem closes_shape {digits : Prop} {s t : Lexer} (h : Rel (shapeMatch digits) s t)
    (delim : Option Char) : Closes (shapeMatch digits) delim s t := by
  intro as f bs g hs ht
  have hcur := h.cur
  rw [hs, ht] at hcur
  cases hcur with
  | word hw =>
    obtain ⟨rfl, hbare, _⟩ := hw
    by_cases hf : f = .bare
    · rw [hbare hf]
      rfl
    · rw [wordToken_of_ne_bare hf, wordToken_of_ne_bare hf]
      rfl

/-- The symbol without its value. -/
def blank : Sym → Sym
  | .chr c => .chr c
  | .val _ => .val []

theorem put_shape {digits : Prop} {s t : Lexer} (h : Rel (shapeMatch digits) s t) {v : Text}
    (hv : digits → (literal v).all isDigit = true) {f : Form → Form} (hf : ∀ form, f form ≠ .bare) :
    Rel (shapeMatch digits) (s.put (literal v) f) (t.put [] f) := by
  refine h.put ?_
  rintro as a bs b ⟨rfl, _, hdigit, hdigit'⟩
  simp only [shapeMatch, all_append, append_nil, Bool.and_eq_true]
  exact ⟨trivial, fun hb => absurd hb (hf a), fun hall => hdigit hall.1,
    fun hd hall => ⟨hdigit' hd hall, hv hd⟩⟩

theorem fill_ne_bare (f : Form) : fill f ≠ .bare := by
  cases f with
  | bare => decide
  | filled => decide
  | quoted => decide

/-- Values do not change how the text is cut. -/
theorem step_shape {digits : Prop} {s t : Lexer} (h : Rel (shapeMatch digits) s t) (x : Sym)
    (hx : ∀ v, x = .val v → digits → (literal v).all isDigit = true) :
    Option.Rel (Rel (shapeMatch digits)) (s.step isBareChar x) (t.step isBareChar (blank x)) := by
  cases x with
  | chr c => exact step_chr_rel h (fun _ => closes_shape h _) (closes_shape h _)
  | val v =>
    have hv := hx v rfl
    unfold Lexer.step blank
    dsimp only
    rw [← h.mode]
    have hput : ∀ f : Form → Form, (∀ form, f form ≠ .bare) →
        Rel (shapeMatch digits) (s.put (literal v) f) (t.put [] f) :=
      fun f hf => put_shape h hv hf
    have hquoted : ∀ form, quote form ≠ .bare := fun _ h => Form.noConfusion h
    cases s.mode with
    | plain => exact .some (hput fill fill_ne_bare)
    | escaped => exact .some ((hput quote hquoted).withMode _)
    | single => exact .some (hput quote hquoted)
    | double => exact .some (hput quote hquoted)
    | doubleEscaped =>
      refine .some (Rel.withMode ?_ _)
      have hboth := put_shape (h.putQuoted (literal ['\\'])) hv hquoted
      rw [put_put, put_put] at hboth
      exact hboth

theorem run_shape {digits : Prop} {s t : Lexer} (h : Rel (shapeMatch digits) s t) {xs : List Sym}
    (hxs : ∀ v, .val v ∈ xs → digits → (literal v).all isDigit = true) :
    Option.Rel (Rel (shapeMatch digits)) (s.run isBareChar xs)
      (t.run isBareChar (xs.map blank)) := by
  induction xs generalizing s t with
  | nil => exact .some h
  | cons x xs ih =>
    rw [map_cons, Lexer.run, Lexer.run]
    have hstep := step_shape h x fun v hv => hxs v (by rw [hv]; exact .head _)
    generalize s.step isBareChar x = s' at hstep ⊢
    generalize t.step isBareChar (blank x) = t' at hstep ⊢
    cases hstep with
    | none => exact .none
    | some h' => exact ih h' fun v hv => hxs v (.tail _ hv)

theorem rel_new (M : Match) : Rel M .new .new := ⟨.nil, .idle, rfl⟩

/-! ## The filled template and the literal one in step -/

theorem token_op (text : Text) : Token.op text = .op text := rfl

/-- The same words; one with values may be written in any form of `P`. -/
def fillMatch (P : Form → Prop) : Match where
  word as f bs g := as = bs ∧ (g = .filled ∧ P f ∨ g ≠ .filled ∧ f = g)
  token := Eq
  start := ⟨rfl, .inr ⟨by decide, rfl⟩⟩
  put := by
    rintro as f bs g ⟨rfl, h⟩ cs
    exact ⟨rfl, h⟩
  quoted := by
    rintro as f bs g ⟨rfl, -⟩ cs
    exact ⟨rfl, .inr ⟨by decide, rfl⟩⟩
  op := token_op

/-- The symbol as `substitute_command` writes it. -/
def expand : Sym → List Sym
  | .chr c => [.chr c]
  | .val v => (shQuote v).map .chr

/-- No value is inside quotes. -/
def Unquoted (s : Lexer) : List Sym → Prop
  | [] => True
  | x :: xs => (∀ v, x = .val v → s.mode = .plain ∨ s.mode = .escaped) ∧
      ∀ t, s.step isBareChar x = some t → Unquoted t xs

theorem closes_fill_none {P : Form → Prop} {a r : Lexer} (h : Rel (fillMatch P) a r) :
    Closes (fillMatch P) none a r := by
  intro as f bs g ha hr
  have hcur := h.cur
  rw [ha, hr] at hcur
  cases hcur with
  | word hw =>
    have hword : ∀ form, wordToken as form none = .word as := fun form =>
      if_neg fun hio => by simp at hio
    rw [← hw.1, hword, hword]
    rfl

/-- Without hazard, what was a word stays one. -/
theorem closes_fill {P : Form → Prop} {digits : Prop} {a r r0 : Lexer} (h : Rel (fillMatch P) a r)
    (h0 : Rel (shapeMatch digits) r r0) {c : Char} (hmode : a.mode = .plain)
    (hsafe : hazard r0 (.chr c) = false) : Closes (fillMatch P) (some c) a r := by
  intro as f bs g ha hr
  have hcur := h.cur
  rw [ha, hr] at hcur
  cases hcur with
  | word hw =>
    obtain ⟨rfl, ⟨rfl, -⟩ | ⟨-, rfl⟩⟩ := hw
    · have hcur0 := h0.cur
      rw [hr] at hcur0
      generalize hr0 : r0.cur = cur0 at hcur0
      cases hcur0 with
      | word hw0 =>
        obtain ⟨rfl, -, hdigit, -⟩ := hw0
        rw [hazard, ← h0.mode, ← h.mode, hmode, hr0] at hsafe
        simp only [beq_self_eq_true, Bool.true_and, Bool.and_eq_false_iff] at hsafe
        have hnot : ¬ (f = .bare ∧ Option.any isRedirection (some c) = true ∧
            as.all isDigit = true) := by
          rintro ⟨-, hredir, hall⟩
          rcases hsafe with hsafe | hsafe
          · rw [Option.any_some, hsafe] at hredir
            cases hredir
          · rw [hdigit hall] at hsafe
            cases hsafe
        rw [wordToken, if_neg hnot, wordToken_of_ne_bare (by decide)]
        rfl
    · rfl

/-- A value in its place: the quoted text and the literal value have the same effect. -/
theorem step_fill {P : Form → Prop} {a r : Lexer} (h : Rel (fillMatch P) a r)
    (hmode : r.mode = .plain) {v : Text} (hbare : P .bare) (hquoted : ¬ isBare v → P .quoted) :
    Option.Rel (Rel (fillMatch P)) (a.run isBareChar (expand (.val v)))
    (r.step isBareChar (.val v)) := by
  obtain ⟨f, hf, hid, hrun⟩ := run_shQuote (h.mode.trans hmode) v
  rw [expand, hrun]
  unfold Lexer.step
  dsimp only
  rw [hmode]
  refine .some (h.put ?_)
  rintro as a' bs b ⟨rfl, hform⟩
  refine ⟨rfl, ?_⟩
  have hP : ∀ form, P form → P (f form) := by
    intro form hform
    by_cases hv : isBare v
    · rw [hid hv]
      exact hform
    · rcases hf with rfl | rfl
      · exact hform
      · exact hquoted hv
  rcases hform with ⟨rfl, hP'⟩ | ⟨hne, rfl⟩
  · exact .inl ⟨rfl, hP _ hP'⟩
  · cases a' with
    | bare => exact .inl ⟨rfl, hP _ hbare⟩
    | filled => exact absurd rfl hne
    | quoted =>
      refine .inr ⟨by decide, ?_⟩
      rcases hf with rfl | rfl
      · rfl
      · rfl

/-- **A clean template is read as written**, up to the form of its words. -/
theorem run_fill {P : Form → Prop} {digits : Prop} {a r r0 : Lexer} (h : Rel (fillMatch P) a r)
    (h0 : Rel (shapeMatch digits) r r0) {xs : List Sym} (hclean : clean r0 (xs.map blank) = true)
    (hunquoted : Unquoted r xs) (hbare : P .bare)
    (hquoted : ∀ v, .val v ∈ xs → ¬ isBare v → P .quoted)
    (hdigits : ∀ v, .val v ∈ xs → digits → (literal v).all isDigit = true) :
    Option.Rel (Rel (fillMatch P)) (a.run isBareChar (xs.flatMap expand))
      (r.run isBareChar xs) := by
  induction xs generalizing a r r0 with
  | nil => exact .some h
  | cons x xs ih =>
    rw [map_cons, clean, Bool.and_eq_true, Bool.not_eq_true'] at hclean
    obtain ⟨hsafe, hrest⟩ := hclean
    obtain ⟨hplace, hunquoted⟩ := hunquoted
    rw [List.flatMap_cons, run_append, Lexer.run]
    have hstep : Option.Rel (Rel (fillMatch P)) (a.run isBareChar (expand x))
        (r.step isBareChar x) := by
      cases x with
      | chr c =>
        rw [expand, run_singleton]
        exact step_chr_rel h (fun hmode => closes_fill h h0 hmode hsafe) (closes_fill_none h)
      | val v =>
        have hmode : r.mode = .plain := by
          rcases hplace v rfl with hmode | hmode
          · exact hmode
          · rw [blank, hazard, ← h0.mode, hmode] at hsafe
            cases hsafe
        exact step_fill h hmode hbare (hquoted v (.head _))
    have hstep0 := step_shape h0 x fun v hv => hdigits v (by rw [hv]; exact .head _)
    generalize a.run isBareChar (expand x) = a' at hstep ⊢
    generalize hr' : r.step isBareChar x = r' at hstep hstep0 ⊢
    generalize r0.step isBareChar (blank x) = r0' at hstep0 hrest
    cases hstep with
    | none => exact .none
    | @some a' r' h' =>
      cases hstep0 with
      | some h0' =>
        exact ih h' h0' hrest (hunquoted _ hr') (fun v hv => hquoted v (.tail _ hv))
          (fun v hv => hdigits v (.tail _ hv))

end Thegn.Task
