import Thegn.Log.Line

set_option autoImplicit false

/-! # A quoted value in a log line

A line `front key d "v" back` with a sensitive key, where `d` is a colon or an equals sign and
nothing else in the line looks like a field or a flag. The two passes of the redaction differ in
what a value is: a word is cut at white space, and a string only at its quotes. What comes out does
not depend on `v` exactly when the first pass leaves the word with the key alone, or the second one
drops the rest of the line because the key names a cookie (`quoted_hidden_iff`).
-/

namespace Thegn.Log

open Text Splice List

/-! ## Masking word by word -/

/-- The first pass in the middle of a line; the word before may have been a flag. -/
def maskFrom (redactNext : Bool) (line : Text) : Text :=
  newOf (wordPieces redactNext (wordsOf line).1) ++ (wordsOf line).2

theorem maskArgs_eq (line : Text) : maskArgs line = maskFrom false line := by
  rw [maskArgs, argPieces, newOf_append, maskFrom]
  exact congrArg _ (append_nil _)

section

variable {t : Text} (redactNext : Bool)

theorem maskFrom_space {g : Text} (hg : ∀ c ∈ g, isWhitespace c = true) :
    maskFrom redactNext (g ++ t) = g ++ maskFrom redactNext t := by
  have hdrop : (g ++ t).dropWhile isWhitespace = t.dropWhile isWhitespace :=
    dropWhile_append_of_pos hg
  have htake : (g ++ t).takeWhile isWhitespace = g ++ t.takeWhile isWhitespace :=
    takeWhile_append_of_pos hg
  unfold maskFrom
  cases h : t.dropWhile isWhitespace with
  | nil =>
    rw [wordsOf_nil h, wordsOf_nil (hdrop.trans h)]
    rfl
  | cons c u =>
    rw [wordsOf_cons h, wordsOf_cons (hdrop.trans h), htake, wordPieces, wordPieces, newOf_cons,
      newOf_cons, append_assoc, append_assoc]
    exact append_assoc _ _ _

theorem maskFrom_word {w : Text} (hne : w ≠ []) (hw : ∀ c ∈ w, isWhitespace c = false)
    (ht : ∀ c ∈ t.head?, isWhitespace c = true) :
    maskFrom redactNext (w ++ t) = (redactToken redactNext w).1 ++
      maskFrom (redactToken redactNext w).2 t := by
  obtain ⟨c, w, rfl⟩ := exists_cons_of_ne_nil hne
  have hspace : ¬ isWhitespace c = true := by simp [hw c mem_cons_self]
  have hword : ∀ d ∈ c :: w, (!isWhitespace d) = true := fun d hd => by simp [hw d hd]
  have hstop : t.takeWhile (!isWhitespace ·) = [] ∧ t.dropWhile (!isWhitespace ·) = t := by
    cases t with
    | nil => exact ⟨rfl, rfl⟩
    | cons d t => simp [ht d rfl]
  have hdrop : (c :: w ++ t).dropWhile isWhitespace = c :: (w ++ t) := dropWhile_cons_of_neg hspace
  have htake : (c :: w ++ t).takeWhile isWhitespace = [] := takeWhile_cons_of_neg hspace
  have hfirst : (c :: (w ++ t)).takeWhile (!isWhitespace ·) = c :: w := by
    rw [← cons_append, takeWhile_append_of_pos hword, hstop.1, append_nil]
  have hrest : (c :: (w ++ t)).dropWhile (!isWhitespace ·) = t := by
    rw [← cons_append, dropWhile_append_of_pos hword, hstop.2]
  rw [maskFrom, wordsOf_cons hdrop, htake, hfirst, hrest, wordPieces, newOf_cons, newOf_append,
    newOf_tokenPieces, maskFrom, append_assoc, append_assoc]
  rfl

end

/-- Neither an assignment nor a flag. -/
def Inert (t : Text) : Prop := ∀ c ∈ t, c ≠ '=' ∧ c ≠ '-'

theorem redactToken_inert {w : Text} (h : Inert w) : redactToken false w = (w, false) := by
  have hsplit : splitOnce ['='] w = none := by
    have hskip := splitOnce_skip (a := '=') (p := []) (w := w) [] fun hmem => (h _ hmem).1 rfl
    rw [append_nil] at hskip
    rw [hskip]
    rfl
  have hflag : startsWith w ['-'] = false := by
    rw [← Bool.not_eq_true, startsWith_iff]
    rintro ⟨r, rfl⟩
    exact (h '-' (.head _)).2 rfl
  simp [redactToken, hsplit, hflag]

/-- An inert part that ends with white space is left alone. The induction is on its words. -/
theorem maskFrom_inert_append {t : Text} (a : Text) (h : Inert a)
    (hend : ∀ c ∈ a.getLast?, isWhitespace c = true) :
    maskFrom false (a ++ t) = a ++ maskFrom false t := by
  induction a using wordsOf.induct with
  | case1 a hspace => exact maskFrom_space false (dropWhile_eq_nil_iff.mp hspace)
  | case2 a c u hcut ih =>
    have ha := takeWhile_append_dropWhile (p := isWhitespace) (l := a)
    have hu := takeWhile_append_dropWhile (p := (!isWhitespace ·)) (l := c :: u)
    have hgap : ∀ d ∈ a.takeWhile isWhitespace, isWhitespace d = true :=
      fun d hd => mem_takeWhile_imp hd
    have hword : ∀ d ∈ (c :: u).takeWhile (!isWhitespace ·), isWhitespace d = false := by
      intro d hd
      simpa using mem_takeWhile_imp hd
    have hne : (c :: u).takeWhile (!isWhitespace ·) ≠ [] := by
      have hc := List.head?_dropWhile_not isWhitespace a
      rw [hcut] at hc
      have hc : isWhitespace c = false := by simpa using hc
      simp [hc]
    have hbehind := List.head?_dropWhile_not (!isWhitespace ·) (c :: u)
    rw [hcut] at ha
    generalize a.takeWhile isWhitespace = gap at ha hgap
    generalize (c :: u).takeWhile (!isWhitespace ·) = word at hu hword hne
    generalize (c :: u).dropWhile (!isWhitespace ·) = rest at hu hbehind ih
    subst ha
    rw [← hu] at h hend ⊢
    have hrest : rest ≠ [] := by
      rintro rfl
      obtain ⟨d, hd⟩ := Option.ne_none_iff_exists'.mp (mt List.getLast?_eq_none_iff.mp hne)
      have hlast := hend d (by simp [hd])
      rw [hword d (mem_of_getLast? hd)] at hlast
      cases hlast
    have hstart : ∀ d ∈ (rest ++ t).head?, isWhitespace d = true := by
      obtain ⟨d, rest, rfl⟩ := exists_cons_of_ne_nil hrest
      intro e he
      cases he
      simpa using hbehind
    have hwordInert : Inert word := fun d hd => h d (by simp [hd])
    have hih := ih (fun d hd => h d (by simp [hd])) fun d hd => hend d (by
      rw [List.getLast?_append_of_ne_nil _ (by simp [hrest]),
        List.getLast?_append_of_ne_nil _ hrest]
      exact hd)
    rw [append_assoc, append_assoc, maskFrom_space false hgap, maskFrom_word false hne hword hstart,
      redactToken_inert hwordInert, hih, append_assoc, append_assoc]

theorem maskFrom_nil (redactNext : Bool) : maskFrom redactNext [] = [] := by
  rw [maskFrom, wordsOf_nil rfl]
  rfl

/-- What is left of a line, from the first white space on. -/
def fromSpace (t : Text) : Text := t.dropWhile (!isWhitespace ·)

theorem fromSpace_head (t : Text) : ∀ c ∈ (fromSpace t).head?, isWhitespace c = true := by
  intro c hc
  have := List.head?_dropWhile_not (!isWhitespace ·) t
  rw [show t.dropWhile (!isWhitespace ·) = fromSpace t from rfl, Option.mem_def.mp hc] at this
  simpa using this

/-- What stands behind the last white space. -/
def lastWord (t : Text) : Text := (t.reverse.takeWhile (!isWhitespace ·)).reverse

theorem lastWord_spec (t : Text) :
    (∀ c ∈ lastWord t, isWhitespace c = false) ∧ ∃ a, t = a ++ lastWord t ∧
    ∀ c ∈ a.getLast?, isWhitespace c = true := by
  constructor
  · intro c hc
    simpa using mem_takeWhile_imp (mem_reverse.mp hc)
  · refine ⟨(t.reverse.dropWhile (!isWhitespace ·)).reverse, ?_, ?_⟩
    · rw [lastWord, ← reverse_append, takeWhile_append_dropWhile, reverse_reverse]
    · intro c hc
      have := List.head?_dropWhile_not (!isWhitespace ·) t.reverse
      rw [List.getLast?_reverse] at hc
      rw [Option.mem_def.mp hc] at this
      simpa using this

theorem maskFrom_inert {t : Text} (h : Inert t) : maskFrom false t = t := by
  obtain ⟨hword, a, ht, hend⟩ := lastWord_spec t
  have ha : Inert a := fun c hc => h c (by rw [ht]; exact mem_append_left _ hc)
  have hw : Inert (lastWord t) := fun c hc => h c (by rw [ht]; exact mem_append_right _ hc)
  rw [ht, maskFrom_inert_append a ha hend]
  by_cases hne : lastWord t = []
  · rw [hne, maskFrom_nil]
  · have hlast := maskFrom_word (t := []) false hne hword (by simp)
    rw [append_nil, redactToken_inert hw, maskFrom_nil, append_nil] at hlast
    rw [hlast]

/-- A word in the middle of a line; only the last white space before it matters. -/
theorem maskArgs_word {front word x : Text} (hfront : Inert front) (hne : word ≠ [])
    (hword : ∀ c ∈ word, isWhitespace c = false) :
    ∃ a, a ++ lastWord front = front ∧
      maskArgs (front ++ (word ++ x)) =
        a ++ ((redactToken false (lastWord front ++ word ++ x.takeWhile (!isWhitespace ·))).1 ++
          maskFrom (redactToken false (lastWord front ++ word ++ x.takeWhile (!isWhitespace ·))).2
            (fromSpace x)) := by
  obtain ⟨hlast, a, ha, hend⟩ := lastWord_spec front
  have hline : front ++ (word ++ x) = a ++
    (lastWord front ++ word ++ x.takeWhile (!isWhitespace ·) ++ fromSpace x) := by
    conv_lhs => rw [ha, ← takeWhile_append_dropWhile (p := (!isWhitespace ·)) (l := x)]
    simp only [append_assoc]
    rfl
  have hinert : Inert a := fun c hc => hfront c (by rw [ha]; exact mem_append_left _ hc)
  have hspace : ∀ c ∈ lastWord front ++ word ++ x.takeWhile (!isWhitespace ·),
    isWhitespace c = false := by
    intro c hc
    rcases mem_append.mp hc with hc | hc
    · rcases mem_append.mp hc with hc | hc
      · exact hlast c hc
      · exact hword c hc
    · simpa using mem_takeWhile_imp hc
  refine ⟨a, ha.symm, ?_⟩
  rw [maskArgs_eq, hline, maskFrom_inert_append a hinert hend,
    maskFrom_word false (by simp [hne]) hspace (fromSpace_head x)]

/-! ## The lines with a quoted value -/

/-- Neither the beginning of a value nor a dash. -/
def IsPlain (c : Char) : Prop := c.toNat < 128 ∧ c ≠ ':' ∧ c ≠ '=' ∧ c ≠ '"' ∧ c ≠ '-'

def IsNameChar (c : Char) : Prop :=
  c.toNat < 128 ∧ isSeparator c = false ∧ isDelimiter c = false ∧ isQuote c = false

instance (c : Char) : Decidable (IsNameChar c) := inferInstanceAs (Decidable (_ ∧ _ ∧ _ ∧ _))

/-- `front key d "v" back`, but for `v`. -/
structure QuotedField where
  front : Text
  key : Text
  /-- whether the key stands in quotes -/
  quoted : Bool
  delimiter : Char
  spaces : Nat
  back : Text
  front_plain : ∀ c ∈ front, IsPlain c
  front_end : ∀ c ∈ front.getLast?, c ∈ [' ', ',', '{']
  key_name : ∀ c ∈ key, IsNameChar c
  key_sensitive : isSensitiveKey key = true
  delimiter_eq : delimiter = ':' ∨ delimiter = '='
  back_plain : ∀ c ∈ back, IsPlain c

/-- Words of letters and digits, with a single space in between. -/
def IsSecret (v : Text) : Prop :=
  v ≠ [] ∧ (∀ c ∈ v, c.isAlphanum = true ∨ c = ' ') ∧ v.head? ≠ some ' ' ∧ v.getLast? ≠ some ' ' ∧
    ¬ [' ', ' '] <:+: v

namespace QuotedField

variable (f : QuotedField)

def name : Text := if f.quoted then '"' :: (f.key ++ ['"']) else f.key

/-- What stands behind the delimiter. -/
def value (v : Text) : Text := List.replicate f.spaces ' ' ++ '"' :: (v ++ '"' :: f.back)

def line (v : Text) : Text := f.front ++ (f.name ++ f.delimiter :: f.value v)

/-- The argument that the first pass sees, as far as the name goes. -/
def argument : Text := lastWord f.front ++ f.name

/-- The first pass leaves the argument alone, or the second one drops the rest of the line. -/
def Hidden : Prop :=
  if f.delimiter = '=' then
    (isSensitiveKey (trimDashes f.argument) = true → ∃ c ∈ trimDashes f.argument, c ∈ urlChars) ∨
      isCookie f.key = true
  else
    startsWith f.argument ['-'] = false ∨
      0 < f.spaces ∧ (isSensitiveKey (trimDashes (f.argument ++ [':'])) = false ∨
        isCookie f.key = true)

end QuotedField

/-! ## One field in a line -/

theorem forall_of_all {p : Char → Prop} [DecidablePred p] {t : Text}
    (h : (t.all fun c => decide (p c)) = true) :
    ∀ c ∈ t, p c := by simpa using h

theorem endsValue_redacted : ∀ c ∈ redacted, endsValue c = false := forall_of_all rfl

theorem ascii_redacted : ∀ c ∈ redacted, c.toNat < 128 := forall_of_all rfl

section

variable {a tail kept secret behind : Text} {d : Char}

/-- **The second pass, where a line has one field.** -/
theorem redactTextLine_field {line : Text} (hline : maskArgs line = a ++ d :: tail)
    (hascii : ∀ c ∈ line, c.toNat < 128)
    (ha : ∀ c ∈ a, isDelimiter c = false) (hd : isDelimiter d = true)
    (hkey : isSensitiveKey (keyOf a) = true)
    (hparts : valueParts (keyOf a) (tail.dropWhile isWhitespace) = (kept, secret, behind))
    (hsecret : secret ≠ []) (hbehind : ∀ c ∈ behind, isDelimiter c = false) :
    redactTextLine line = some
    (a ++ d :: (tail.takeWhile isWhitespace ++ (kept ++ (redacted ++ behind)))) := by
  have htake : (a ++ d :: tail).takeWhile (!isDelimiter ·) = a := by
    rw [takeWhile_append_of_pos
      fun c hc => by simp [ha c hc], takeWhile_cons_of_neg (by simp [hd]), append_nil]
  have hdrop : (a ++ d :: tail).dropWhile (!isDelimiter ·) = d :: tail := by
    rw [dropWhile_append_of_pos fun c hc => by simp [ha c hc], dropWhile_cons_of_neg (by simp [hd])]
  have hfirst : splitField [] (a ++ d :: tail) =
    some ⟨a, a ++ d :: tail.takeWhile isWhitespace ++ kept, secret, behind⟩ := by
    rw [splitField, hdrop]
    dsimp only
    rw [htake, nil_append, hparts]
    exact if_pos ⟨hkey, fun _ => hsecret⟩
  have hlast : ∀ before, splitField before behind = none := by
    intro before
    have hnil : behind.dropWhile (!isDelimiter ·) = [] :=
      dropWhile_eq_nil_iff.mpr fun c hc => by simp [hbehind c hc]
    rw [splitField, hnil]
  have hlen : ∀ c ∈ maskArgs line, charLen c = 1 := fun c hc =>
    charLen_of_lt ((mem_maskArgs hc).elim (hascii c) (ascii_redacted c))
  rw [redactTextLine_eq, if_pos (not_breaks_of_charLen hlen), hline, fields_some hfirst,
    if_neg hsecret, fields_none (hlast _)]
  simp [Piece.new]

end

theorem stringBody_of_plain {t : Text} (h : ∀ c ∈ t, c ≠ '"') (escaped : Bool) :
    stringBody escaped t = t := by
  induction t generalizing escaped with
  | nil => rfl
  | cons c t ih =>
    have hrest := fun e => ih (fun d hd => h d (mem_cons_of_mem c hd)) e
    have hc := h c (.head _)
    unfold stringBody
    split_ifs
    · rw [hrest]
    · rw [hrest]
    · rw [hrest]

theorem stringBody_append {v : Text} (h : ∀ c ∈ v, c ≠ '"' ∧ c ≠ '\\') (t : Text) :
    stringBody false (v ++ '"' :: t) = v := by
  induction v with
  | nil => rfl
  | cons c v ih =>
    obtain ⟨hquote, hslash⟩ := h c (.head _)
    rw [cons_append, stringBody, if_neg (by simp), if_neg hslash, if_neg hquote,
      ih fun d hd => h d (mem_cons_of_mem c hd)]

theorem valueParts_string (key : Text) {v : Text} (h : ∀ c ∈ v, c ≠ '"' ∧ c ≠ '\\') (t : Text) :
    valueParts key ('"' :: (v ++ '"' :: t)) = (['"'], v, '"' :: t) := by
  have hstart : startsWith ('"' :: (v ++ '"' :: t)) ['"'] = true := startsWith_iff.mpr ⟨_, rfl⟩
  rw [valueParts, if_pos hstart, tail_cons, stringBody_append h]
  dsimp only
  rw [drop_left]

/-- A string that is not closed. -/
theorem valueParts_open (key : Text) {t : Text} (h : ∀ c ∈ t, c ≠ '"') :
    valueParts key ('"' :: t) = (['"'], t, []) := by
  have hstart : startsWith ('"' :: t) ['"'] = true := startsWith_iff.mpr ⟨_, rfl⟩
  rw [valueParts, if_pos hstart, tail_cons, stringBody_of_plain h]
  dsimp only
  rw [drop_length]

/-- A placeholder as a value. -/
theorem valueParts_redacted {key z : Text} (hkey : isCookie key = false)
    (hz : ∀ c ∈ z.head?, isWhitespace c = true) :
    valueParts key (redacted ++ z) = ([], redacted, z) := by
  have hends : ∀ c ∈ z.head?, endsValue c = true := fun c hc => by simp [endsValue, hz c hc]
  have hkeep : ∀ c ∈ redacted, (!endsValue c) = true :=
    fun c hc => by simp [endsValue_redacted c hc]
  have htake : (redacted ++ z).takeWhile (!endsValue ·) = redacted := by
    rw [takeWhile_append_of_pos hkeep]
    cases z with
    | nil => rfl
    | cons c z => simp [hends c rfl]
  have hdrop : (redacted ++ z).dropWhile (!endsValue ·) = z := by
    rw [dropWhile_append_of_pos hkeep]
    cases z with
    | nil => rfl
    | cons c z => simp [hends c rfl]
  have hstart : ¬ startsWith (redacted ++ z) ['"'] = true := by
    rw [startsWith_iff]
    rintro ⟨r, hr⟩
    cases hr
  rw [valueParts, if_neg hstart, if_neg (by simp [hkey]), htake, hdrop]
  have hscheme : isScheme redacted = false := rfl
  exact if_neg (by simp [hscheme])

/-- The white space at the end. -/
def spaceBehind (t : Text) : Text := (t.reverse.takeWhile isWhitespace).reverse

/-- A placeholder as the value of a cookie. -/
theorem valueParts_cookie {key : Text} (hkey : isCookie key = true) (z : Text) :
    ∃ secret, secret ≠ [] ∧
      valueParts key (redacted ++ z) = ([], secret, spaceBehind (redacted ++ z)) := by
  have hstart : ¬ startsWith (redacted ++ z) ['"'] = true := by
    rw [startsWith_iff]
    rintro ⟨r, hr⟩
    cases hr
  have hdrop : ∀ t : Text, t.drop (trimEnd t).length = spaceBehind t := by
    intro t
    have hsplit :=
      congrArg List.reverse (takeWhile_append_dropWhile (p := isWhitespace) (l := t.reverse))
    rw [reverse_append, reverse_reverse] at hsplit
    have hsplit : trimEnd t ++ spaceBehind t = t := hsplit
    calc t.drop (trimEnd t).length
        = (trimEnd t ++ spaceBehind t).drop (trimEnd t).length := by rw [hsplit]
      _ = spaceBehind t := drop_left
  have hstar : '*' ∈ redacted := .head _
  refine ⟨trimEnd (redacted ++ z), trimEnd_ne_nil ⟨'*', mem_append_left z hstar, rfl⟩, ?_⟩
  rw [valueParts, if_neg hstart, if_pos hkey, hdrop]

/-- White space at the end is not looked for behind a word. -/
theorem spaceBehind_append {u : Text} (hu : ∀ c ∈ u.getLast?, isWhitespace c = false) (t : Text) :
    spaceBehind (u ++ t) = spaceBehind t := by
  unfold spaceBehind
  rw [reverse_append, takeWhile_append]
  split_ifs with hall
  · have hstop : u.reverse.takeWhile isWhitespace = [] := by
      rw [← List.head?_reverse] at hu
      cases h : u.reverse with
      | nil => rfl
      | cons c r => exact takeWhile_cons_of_neg (by simp [hu c (by simp [h])])
    rw [hstop, append_nil]
    have hlen : (t.reverse.takeWhile isWhitespace).length = t.reverse.length := hall
    rw [(List.takeWhile_prefix isWhitespace).eq_of_length hlen]
  · rfl

/-! ## The parts of the line -/

theorem maskFrom_flag {g y : Text} (hg : ∀ c ∈ g, isWhitespace c = true) {c : Char}
    (hc : isWhitespace c = false) (hdash : c ≠ '-') (hy : Inert (fromSpace (c :: y))) :
    maskFrom true (g ++ c :: y) = g ++ (redacted ++ fromSpace (c :: y)) := by
  have hsplit : (c :: y).takeWhile (!isWhitespace ·) ++ fromSpace (c :: y) = c :: y :=
    takeWhile_append_dropWhile
  have hhead : (c :: y).takeWhile (!isWhitespace ·) = c :: y.takeWhile (!isWhitespace ·) :=
    takeWhile_cons_of_pos (by simp [hc])
  have hword : ∀ d ∈ (c :: y).takeWhile (!isWhitespace ·), isWhitespace d = false := fun d hd => by
    simpa using mem_takeWhile_imp hd
  have htoken : redactToken true ((c :: y).takeWhile (!isWhitespace ·)) = (redacted, false) := by
    have hflag : startsWith ((c :: y).takeWhile (!isWhitespace ·)) ['-'] = false := by
      rw [hhead]
      simp [startsWith, List.isPrefixOf, hdash.symm]
    rw [redactToken, if_pos (by simp [hflag])]
  conv_lhs => rw [← hsplit]
  rw [maskFrom_space true hg, maskFrom_word true (by simp [hhead]) hword (fromSpace_head _), htoken]
  exact congrArg _ (congrArg _ (maskFrom_inert hy))

/-- An assignment in an argument. -/
theorem redactToken_assignment {a : Text} (ha : '=' ∉ a) (r : Text) :
    redactToken false (a ++ '=' :: r) =
      if isSensitiveKey (trimDashes a) && !(trimDashes a).any (· ∈ urlChars)
        then (a ++ '=' :: redacted, false)
      else (a ++ '=' :: r, false) := by
  have hsplit : splitOnce ['='] (a ++ '=' :: r) = some (a, r) := by
    have hself := splitOnce_self (a := '=') [] r
    rw [splitOnce_skip _ ha, show '=' :: r = ['='] ++ r from rfl, hself]
    simp
  rw [redactToken, if_neg (by simp), hsplit]

theorem redactToken_word {a : Text} (ha : '=' ∉ a) :
    redactToken false a = (a, startsWith a ['-'] && isSensitiveKey (trimDashes a)) := by
  have hsplit : splitOnce ['='] a = none := by
    have hskip := splitOnce_skip (a := '=') (p := []) [] ha
    rw [append_nil] at hskip
    rw [hskip]
    rfl
  rw [redactToken, if_neg (by simp), hsplit]

theorem ne_of_isSecretChar {c : Char} (h : c.isAlphanum = true ∨ c = ' ') :
    IsPlain c ∧ c ≠ '\\' := by
  rcases h with h | rfl
  · have hlt : c.toNat < 128 := by
      simp only [Char.isAlphanum, Char.isAlpha, Char.isUpper, Char.isLower, Char.isDigit,
        Bool.or_eq_true, Bool.and_eq_true, decide_eq_true_eq, UInt32.le_iff_toNat_le] at h
      have hval : c.toNat = c.val.toNat := rfl
      rcases h with (⟨-, h⟩ | ⟨-, h⟩) | ⟨-, h⟩
      all_goals
        simp at h
        omega
    have hne : ∀ d, d.isAlphanum = false → c ≠ d := by
      rintro d hd rfl
      rw [hd] at h
      cases h
    exact ⟨⟨hlt, hne _ (by decide), hne _ (by decide), hne _ (by decide), hne _ (by decide)⟩,
      hne _ (by decide)⟩
  · unfold IsPlain
    decide

namespace QuotedField

variable (f : QuotedField)

theorem name_chars : ∀ c ∈ f.name, c.toNat < 128 ∧ isSeparator c = false ∧
    isDelimiter c = false := by
  have hkey : ∀ c ∈ f.key, c.toNat < 128 ∧ isSeparator c = false ∧ isDelimiter c = false :=
    fun c hc =>
    ⟨(f.key_name c hc).1, (f.key_name c hc).2.1, (f.key_name c hc).2.2.1⟩
  intro c hc
  unfold name at hc
  split_ifs at hc
  · rcases mem_cons.mp hc with rfl | hc
    · decide
    rcases mem_append.mp hc with hc | hc
    · exact hkey c hc
    · rw [mem_singleton.mp hc]
      decide
  · exact hkey c hc

theorem isWhitespace_name {c : Char} (hc : c ∈ f.name) : isWhitespace c = false := by
  have hsep := (f.name_chars c hc).2.1
  rw [isSeparator, Bool.or_eq_false_iff] at hsep
  exact hsep.1

theorem key_ne_nil : f.key ≠ [] := by
  intro hnil
  have hkey := f.key_sensitive
  rw [hnil] at hkey
  exact absurd hkey (by decide)

theorem name_ne_nil : f.name ≠ [] := by
  unfold name
  split_ifs
  · exact cons_ne_nil _ _
  · exact f.key_ne_nil

/-- The name is found again, without its quotes. -/
theorem keyOf_name : keyOf (f.front ++ f.name) = f.key := by
  have hfield : fieldName (f.front ++ f.name) = f.name := by
    have hname : ∀ c ∈ f.name.reverse, (!isSeparator c) = true := fun c hc => by
      simp [(f.name_chars c (mem_reverse.mp hc)).2.1]
    have hstop : f.front.reverse.takeWhile (!isSeparator ·) = [] := by
      have hend := f.front_end
      rw [← List.head?_reverse] at hend
      cases h : f.front.reverse with
      | nil => rfl
      | cons c r =>
        have hc := hend c (by simp [h])
        have hsep : isSeparator c = true := by
          rcases (by simpa using hc : c = ' ' ∨ c = ',' ∨ c = '{') with rfl | rfl | rfl <;> decide
        exact takeWhile_cons_of_neg (by simp [hsep])
    rw [fieldName, reverse_append, takeWhile_append_of_pos hname, hstop, append_nil,
      reverse_reverse]
  have htrim : trim f.name = f.name :=
    (trimmed_of_forall fun c hc => f.isWhitespace_name hc).trim_eq
  have hkey : ∀ c ∈ f.key, isQuote c = false := fun c hc => (f.key_name c hc).2.2.2
  have hbare : trimMatches isQuote f.key = f.key := by
    have hdrop : f.key.dropWhile isQuote = f.key := by
      obtain ⟨c, k, hk⟩ := exists_cons_of_ne_nil f.key_ne_nil
      rw [hk]
      exact dropWhile_cons_of_neg (by simp [hkey c (by simp [hk])])
    rw [trimMatches, hdrop, trimEndMatches_eq_self fun c hc => hkey c (mem_of_getLast? hc)]
  rw [keyOf, hfield, htrim]
  unfold name
  split_ifs
  · have hopen : ('"' :: (f.key ++ ['"'])).dropWhile isQuote = f.key ++ ['"'] := by
      obtain ⟨c, k, hk⟩ := exists_cons_of_ne_nil f.key_ne_nil
      have hc := hkey c (by simp [hk])
      rw [dropWhile_cons_of_pos (by decide), hk, cons_append]
      exact dropWhile_cons_of_neg (by simp [hc])
    rw [trimMatches, hopen, trimEndMatches_append _ (by simp [isQuote])]
    exact trimEndMatches_eq_self fun c hc => hkey c (mem_of_getLast? hc)
  · exact hbare

theorem front_inert : Inert f.front :=
  fun c hc => ⟨(f.front_plain c hc).2.2.1, (f.front_plain c hc).2.2.2.2⟩

theorem lastWord_subset (t : Text) : lastWord t ⊆ t := by
  obtain ⟨-, a, ht, -⟩ := lastWord_spec t
  intro c hc
  rw [ht]
  exact mem_append_right a hc

/-- There is no delimiter before the field's own. -/
theorem isDelimiter_front : ∀ c ∈ f.front ++ f.name, isDelimiter c = false := by
  intro c hc
  rcases mem_append.mp hc with hc | hc
  · have hplain := f.front_plain c hc
    simp [isDelimiter, hplain.2.1, hplain.2.2.1]
  · exact (f.name_chars c hc).2.2

theorem argument_chars : ∀ c ∈ f.argument, isDelimiter c = false := by
  intro c hc
  apply f.isDelimiter_front
  rcases mem_append.mp hc with hc | hc
  · exact mem_append_left _ (lastWord_subset f.front hc)
  · exact mem_append_right _ hc

theorem isDelimiter_delimiter : isDelimiter f.delimiter = true := by
  rcases f.delimiter_eq with h | h <;> rw [h] <;> decide

section

variable {v : Text} (hv : ∀ c ∈ v, c.isAlphanum = true ∨ c = ' ')

include hv in
theorem value_chars : ∀ c ∈ f.value v, c.toNat < 128 ∧ c ≠ '-' ∧ isDelimiter c = false := by
  have hplain : ∀ c, IsPlain c → c.toNat < 128 ∧ c ≠ '-' ∧ isDelimiter c = false := fun c hc =>
    ⟨hc.1, hc.2.2.2.2, by simp [isDelimiter, hc.2.1, hc.2.2.1]⟩
  intro c hc
  rcases mem_append.mp hc with hc | hc
  · rw [(mem_replicate.mp hc).2]
    decide
  rcases mem_cons.mp hc with rfl | hc
  · decide
  rcases mem_append.mp hc with hc | hc
  · exact hplain c (ne_of_isSecretChar (hv c hc)).1
  rcases mem_cons.mp hc with rfl | hc
  · decide
  · exact hplain c (f.back_plain c hc)

include hv in
theorem value_inert : Inert (f.value v) := by
  intro c hc
  have hchar := f.value_chars hv c hc
  refine ⟨?_, hchar.2.1⟩
  rintro rfl
  exact absurd hchar.2.2 (by decide)

include hv in
theorem line_ascii : ∀ c ∈ f.line v, c.toNat < 128 := by
  intro c hc
  rcases mem_append.mp hc with hc | hc
  · exact (f.front_plain c hc).1
  rcases mem_append.mp hc with hc | hc
  · exact (f.name_chars c hc).1
  rcases mem_cons.mp hc with rfl | hc
  · rcases f.delimiter_eq with h | h <;> rw [h] <;> decide
  · exact (f.value_chars hv c hc).1

end

/-- The first pass comes to the argument with the name; what is before is left alone. -/
theorem maskArgs_line (v : Text) {out z : Text} {flag : Bool}
    (htoken : redactToken false (f.argument ++ f.delimiter ::
      (f.value v).takeWhile (!isWhitespace ·)) = (f.argument ++ f.delimiter :: out, flag))
    (hrest : maskFrom flag (fromSpace (f.value v)) = z) :
    maskArgs (f.line v) = f.front ++ f.name ++ f.delimiter :: (out ++ z) := by
  have hword : ∀ c ∈ f.name ++ [f.delimiter], isWhitespace c = false := by
    intro c hc
    rcases mem_append.mp hc with hc | hc
    · exact f.isWhitespace_name hc
    · rw [mem_singleton.mp hc]
      rcases f.delimiter_eq with h | h <;> rw [h] <;> decide
  obtain ⟨a, ha, hmask⟩ := maskArgs_word (x := f.value v) f.front_inert (by simp) hword
  have hargument : lastWord f.front ++ (f.name ++ [f.delimiter]) ++
    (f.value v).takeWhile (!isWhitespace ·) =
      f.argument ++ f.delimiter :: (f.value v).takeWhile (!isWhitespace ·) := by
    simp [argument]
  have hline : f.line v = f.front ++ (f.name ++ [f.delimiter] ++ f.value v) := by simp [line]
  rw [hline, hmask, hargument, htoken, hrest]
  dsimp only
  conv_rhs => rw [← ha]
  simp [argument]

/-! ### What comes out -/

section

variable {v : Text} (hv : ∀ c ∈ v, c.isAlphanum = true ∨ c = ' ')

theorem takeWhile_spaces {n : Nat} {c : Char} (hc : isWhitespace c = false) (t : Text) :
    (List.replicate n ' ' ++ c :: t).takeWhile isWhitespace = List.replicate n ' ' := by
  rw [takeWhile_append_of_pos fun d hd => by rw [(mem_replicate.mp hd).2]; decide,
    takeWhile_cons_of_neg (by simp [hc]), append_nil]

theorem dropWhile_spaces {n : Nat} {c : Char} (hc : isWhitespace c = false) (t : Text) :
    (List.replicate n ' ' ++ c :: t).dropWhile isWhitespace = c :: t := by
  rw [dropWhile_append_of_pos fun d hd => by rw [(mem_replicate.mp hd).2]; decide,
    dropWhile_cons_of_neg (by simp [hc])]

include hv in
theorem fromSpace_inert {t : Text} (ht : ∀ c ∈ t, c ∈ f.value v) : Inert (fromSpace t) :=
  fun c hc =>
  f.value_inert hv c (ht c ((dropWhile_suffix _).subset hc))

include hv in
theorem isDelimiter_fromSpace {t : Text} (ht : ∀ c ∈ t, c ∈ f.value v) :
    ∀ c ∈ fromSpace t, isDelimiter c = false := fun c hc =>
  (f.value_chars hv c (ht c ((dropWhile_suffix _).subset hc))).2.2

include hv in
/-- **An argument that is left alone: the string is masked.** -/
theorem redact_untouched (hne : v ≠ [])
    (htoken : redactToken false (f.argument ++ f.delimiter ::
      (f.value v).takeWhile (!isWhitespace ·)) =
      (f.argument ++ f.delimiter :: (f.value v).takeWhile (!isWhitespace ·), false)) :
    redactTextLine (f.line v) = some (f.front ++ f.name ++ f.delimiter :: f.value redacted) := by
  have hmask := f.maskArgs_line v htoken (maskFrom_inert (f.fromSpace_inert hv fun c hc => hc))
  have hsplit : (f.value v).takeWhile (!isWhitespace ·) ++ fromSpace (f.value v) = f.value v :=
    takeWhile_append_dropWhile
  have hquote : isWhitespace '"' = false := by decide
  have hparts := valueParts_string f.key (fun c hc =>
    ⟨(ne_of_isSecretChar (hv c hc)).1.2.2.2.1, (ne_of_isSecretChar (hv c hc)).2⟩) f.back
  have hback : ∀ c ∈ '"' :: f.back, isDelimiter c = false := fun c hc =>
    (f.value_chars hv c (mem_append_right _ (.tail _ (mem_append_right _ hc)))).2.2
  rw [hsplit] at hmask
  rw [redactTextLine_field hmask (f.line_ascii hv) f.isDelimiter_front f.isDelimiter_delimiter
    (by rw [f.keyOf_name]; exact f.key_sensitive)
    (by rw [f.keyOf_name, value, dropWhile_spaces hquote]; exact hparts) hne hback]
  rw [value, takeWhile_spaces hquote, value]
  rfl

/-- What is left behind a placeholder. -/
def behindMask (z : Text) : Text := if isCookie f.key then spaceBehind f.back else z

theorem spaceBehind_value (v : Text) : spaceBehind (f.value v) = spaceBehind f.back := by
  have hline : f.value v = List.replicate f.spaces ' ' ++ '"' :: v ++ ['"'] ++ f.back := by
    simp [value]
  rw [hline]
  refine spaceBehind_append (fun c hc => ?_) f.back
  rw [List.getLast?_concat] at hc
  cases hc
  decide

theorem spaceBehind_fromSpace (t : Text) : spaceBehind (fromSpace t) = spaceBehind t := by
  have hsplit : t.takeWhile (!isWhitespace ·) ++ fromSpace t = t := takeWhile_append_dropWhile
  conv_rhs => rw [← hsplit]
  refine (spaceBehind_append (fun c hc => ?_) _).symm
  simpa using mem_takeWhile_imp (mem_of_getLast? hc)

include hv in
/-- **A placeholder from the first pass: what stands behind it stays, unless the key names a
cookie.** -/
theorem redact_placeholder {n : Nat} {z : Text}
    (hmask : maskArgs (f.line v) = f.front ++ f.name ++ f.delimiter ::
      (List.replicate n ' ' ++ (redacted ++ fromSpace z)))
    (hz : ∀ c ∈ z, c ∈ f.value v) (hspace : spaceBehind z = spaceBehind f.back) :
    redactTextLine (f.line v) =
      some (f.front ++ f.name ++ f.delimiter ::
        (List.replicate n ' ' ++ (redacted ++ f.behindMask (fromSpace z)))) := by
  have hstar : isWhitespace '*' = false := by decide
  have hmask' : ∃ r, redacted ++ fromSpace z = '*' :: r := ⟨_, rfl⟩
  obtain ⟨r, hr⟩ := hmask'
  have hkey : isSensitiveKey (keyOf (f.front ++ f.name)) = true := by
    rw [f.keyOf_name]
    exact f.key_sensitive
  have hdrop : (List.replicate n ' ' ++ (redacted ++ fromSpace z)).dropWhile isWhitespace =
    redacted ++ fromSpace z := by
    rw [hr, dropWhile_spaces hstar]
  have htake : (List.replicate n ' ' ++ (redacted ++ fromSpace z)).takeWhile isWhitespace =
    List.replicate n ' ' := by
    rw [hr, takeWhile_spaces hstar]
  unfold behindMask
  by_cases hcookie : isCookie f.key = true
  · obtain ⟨secret, hne, hparts⟩ := valueParts_cookie hcookie (fromSpace z)
    have hlast : ∀ c ∈ redacted.getLast?, isWhitespace c = false := by
      intro c hc
      cases (show redacted.getLast? = some '*' from rfl).symm.trans hc
      exact hstar
    have hbehind : spaceBehind (redacted ++ fromSpace z) = spaceBehind f.back := by
      rw [spaceBehind_append hlast, spaceBehind_fromSpace, hspace]
    have hplain : ∀ c ∈ spaceBehind f.back, isDelimiter c = false := by
      intro c hc
      have hmem := mem_reverse.mp ((List.takeWhile_prefix _).subset (mem_reverse.mp hc))
      have hplain := f.back_plain c hmem
      simp [isDelimiter, hplain.2.1, hplain.2.2.1]
    rw [hbehind] at hparts
    rw [redactTextLine_field hmask (f.line_ascii hv) f.isDelimiter_front
      f.isDelimiter_delimiter hkey
      (by rw [f.keyOf_name, hdrop]; exact hparts) hne hplain, htake, if_pos hcookie]
    rfl
  · have hparts := @valueParts_redacted f.key _ (by simpa using hcookie) (fromSpace_head z)
    rw [redactTextLine_field hmask (f.line_ascii hv) f.isDelimiter_front
      f.isDelimiter_delimiter hkey
      (by rw [f.keyOf_name, hdrop]; exact hparts) (cons_ne_nil _ _) (f.isDelimiter_fromSpace hv hz),
        htake, if_neg hcookie]
    rfl

theorem argument_no_equals : '=' ∉ f.argument :=
  fun hmem => absurd (f.argument_chars _ hmem) (by decide)

/-- The argument is an assignment that the first pass masks. -/
def Assigns : Prop :=
  isSensitiveKey (trimDashes f.argument) = true ∧ ∀ c ∈ trimDashes f.argument, c ∉ urlChars

theorem redactToken_argument (hd : f.delimiter = '=') (r : Text) :
    (f.Assigns → redactToken false (f.argument ++ f.delimiter :: r) =
      (f.argument ++ f.delimiter :: redacted, false)) ∧
      (¬ f.Assigns → redactToken false (f.argument ++ f.delimiter :: r) =
        (f.argument ++ f.delimiter :: r, false)) := by
  have htoken := redactToken_assignment f.argument_no_equals r
  have hiff : (isSensitiveKey (trimDashes f.argument) &&
    !(trimDashes f.argument).any (· ∈ urlChars)) = true ↔ f.Assigns := by
    simp [Assigns]
  rw [hd, htoken]
  exact ⟨fun h => if_pos (hiff.mpr h), fun h => if_neg (mt hiff.mp h)⟩

include hv in
/-- **An assignment that the first pass masks.** -/
theorem redact_assignment (hd : f.delimiter = '=') (hassigns : f.Assigns) :
    redactTextLine (f.line v) =
      some (f.front ++ f.name ++ f.delimiter ::
        (redacted ++ f.behindMask (fromSpace (f.value v)))) := by
  have hmask := f.maskArgs_line v ((f.redactToken_argument hd _).1 hassigns)
    (maskFrom_inert (f.fromSpace_inert hv fun c hc => hc))
  exact f.redact_placeholder (n := 0) hv hmask (fun c hc => hc) (f.spaceBehind_value v)

include hv in
theorem redactToken_colon (hd : f.delimiter = ':') :
    redactToken false (f.argument ++ f.delimiter :: (f.value v).takeWhile (!isWhitespace ·)) =
      (f.argument ++ f.delimiter :: (f.value v).takeWhile (!isWhitespace ·),
        startsWith f.argument ['-'] &&
          isSensitiveKey (trimDashes (f.argument ++ ':' ::
            (f.value v).takeWhile (!isWhitespace ·)))) := by
  have hequals : '=' ∉ f.argument ++ ':' :: (f.value v).takeWhile (!isWhitespace ·) := by
    intro hmem
    rcases mem_append.mp hmem with hmem | hmem
    · exact f.argument_no_equals hmem
    rcases mem_cons.mp hmem with heq | hmem
    · cases heq
    · exact (f.value_inert hv _ ((List.takeWhile_prefix _).subset hmem)).1 rfl
  have hdash : ∀ t, startsWith (f.argument ++ t) ['-'] = startsWith f.argument ['-'] := by
    intro t
    have hne : f.argument ≠ [] := by simp [argument, f.name_ne_nil]
    obtain ⟨c, a, ha⟩ := exists_cons_of_ne_nil hne
    rw [ha]
    simp [startsWith, List.isPrefixOf]
  rw [hd, redactToken_word hequals, hdash]

/-- With a space behind the colon the argument ends there. -/
theorem takeWhile_value (hspaces : 0 < f.spaces) (v : Text) :
    (f.value v).takeWhile (!isWhitespace ·) = [] ∧ fromSpace (f.value v) = f.value v := by
  obtain ⟨n, hn⟩ := Nat.exists_eq_succ_of_ne_zero (Nat.ne_of_gt hspaces)
  have hvalue : f.value v = ' ' :: (List.replicate n ' ' ++ '"' :: (v ++ '"' :: f.back)) := by
    rw [value, hn, replicate_succ]
    rfl
  have hspace : ¬ (!isWhitespace ' ') = true := by decide
  rw [fromSpace, hvalue]
  exact ⟨takeWhile_cons_of_neg hspace, dropWhile_cons_of_neg hspace⟩

include hv in
/-- **A flag: the first word of the string is masked, with its quote.** -/
theorem redact_flag (hd : f.delimiter = ':') (hdash : startsWith f.argument ['-'] = true)
    (hspaces : 0 < f.spaces) (hsens : isSensitiveKey (trimDashes (f.argument ++ [':'])) = true) :
    redactTextLine (f.line v) =
      some (f.front ++ f.name ++ f.delimiter ::
        (List.replicate f.spaces ' ' ++
          (redacted ++ f.behindMask (fromSpace ('"' :: (v ++ '"' :: f.back)))))) := by
  obtain ⟨htake, hfrom⟩ := f.takeWhile_value hspaces v
  have htoken := f.redactToken_colon hv hd
  have hsub : ∀ c ∈ '"' :: (v ++ '"' :: f.back), c ∈ f.value v := fun c hc => mem_append_right _ hc
  have hrest : maskFrom true (f.value v) = _ :=
    maskFrom_flag (g := List.replicate f.spaces ' ') (c := '"') (y := v ++ '"' :: f.back)
    (fun c hc => by rw [(mem_replicate.mp hc).2]; decide) (by decide) (by decide)
      (f.fromSpace_inert hv hsub)
  have hflag : (startsWith f.argument ['-'] && isSensitiveKey (trimDashes (f.argument ++ [':']))) =
    true := by
    rw [hdash, hsens]
    rfl
  rw [htake, hflag, ← htake] at htoken
  rw [← hfrom] at hrest
  have hmask := f.maskArgs_line v htoken hrest
  rw [htake] at hmask
  have hspace : spaceBehind ('"' :: (v ++ '"' :: f.back)) = spaceBehind f.back := by
    have hline : '"' :: (v ++ '"' :: f.back) = '"' :: v ++ ['"'] ++ f.back := by simp
    rw [hline]
    refine spaceBehind_append (fun c hc => ?_) f.back
    rw [List.getLast?_concat] at hc
    cases hc
    decide
  exact f.redact_placeholder hv hmask hsub hspace

end

/-- The argument is left alone, whatever the secret is. -/
def LeftAlone : Prop :=
  (f.delimiter = '=' ∧ ¬ f.Assigns) ∨
    (f.delimiter = ':' ∧ (startsWith f.argument ['-'] = false ∨
      0 < f.spaces ∧ isSensitiveKey (trimDashes (f.argument ++ [':'])) = false))

theorem redact_leftAlone {v : Text} (hv : ∀ c ∈ v, c.isAlphanum = true ∨ c = ' ') (hne : v ≠ [])
    (h : f.LeftAlone) :
    redactTextLine (f.line v) = some (f.front ++ f.name ++ f.delimiter :: f.value redacted) := by
  apply f.redact_untouched hv hne
  rcases h with ⟨hd, hassigns⟩ | ⟨hd, hdash | ⟨hspaces, hsens⟩⟩
  · exact (f.redactToken_argument hd _).2 hassigns
  · rw [f.redactToken_colon hv hd, hdash]
    rfl
  · rw [f.redactToken_colon hv hd, (f.takeWhile_value hspaces v).1, hsens, Bool.and_false]

theorem leftAlone_or_of_hidden (h : f.Hidden) :
    f.LeftAlone ∨ isCookie f.key = true ∧ ((f.delimiter = '=' ∧ f.Assigns) ∨
      (f.delimiter = ':' ∧ startsWith f.argument ['-'] = true ∧ 0 < f.spaces ∧
        isSensitiveKey (trimDashes (f.argument ++ [':'])) = true)) := by
  unfold Hidden at h
  rcases f.delimiter_eq with hd | hd
  · rw [hd, if_neg (by decide)] at h
    rcases h with hdash | ⟨hspaces, hkey⟩
    · exact .inl (.inr ⟨hd, .inl hdash⟩)
    cases hsens : isSensitiveKey (trimDashes (f.argument ++ [':'])) with
    | false => exact .inl (.inr ⟨hd, .inr ⟨hspaces, hsens⟩⟩)
    | true =>
      have hcookie := hkey.resolve_left (by simp [hsens])
      cases hdash : startsWith f.argument ['-'] with
      | false => exact .inl (.inr ⟨hd, .inl hdash⟩)
      | true => exact .inr ⟨hcookie, .inr ⟨hd, rfl, hspaces, rfl⟩⟩
  · rw [hd, if_pos rfl] at h
    by_cases hassigns : f.Assigns
    · refine .inr ⟨h.resolve_left fun hurl => ?_, .inl ⟨hd, hassigns⟩⟩
      obtain ⟨c, hc, hmem⟩ := hurl hassigns.1
      exact hassigns.2 c hc hmem
    · exact .inl (.inl ⟨hd, hassigns⟩)

/-! ### What betrays the secret -/

theorem fromSpace_length (t : Text) : (fromSpace t).length ≤ t.length :=
  (dropWhile_suffix _).length_le

/-- One word and two words leave different tails. -/
theorem fromSpace_words : fromSpace ('"' :: ("a".toList ++ '"' :: f.back)) ≠
    fromSpace ('"' :: ("a b".toList ++ '"' :: f.back)) := by
  have hone : fromSpace ('"' :: ("a".toList ++ '"' :: f.back)) = fromSpace f.back := rfl
  have htwo : fromSpace ('"' :: ("a b".toList ++ '"' :: f.back)) = ' ' :: 'b' :: '"' :: f.back :=
    rfl
  rw [hone, htwo]
  intro heq
  have hlen := congrArg List.length heq
  have hle := fromSpace_length f.back
  simp only [length_cons] at hlen
  omega

theorem assignment_differs (hd : f.delimiter = '=') (hassigns : f.Assigns)
    (hcookie : isCookie f.key = false) :
    redactTextLine (f.line "a".toList) ≠ redactTextLine (f.line "a b".toList) := by
  rw [f.redact_assignment (forall_of_all rfl) hd hassigns,
    f.redact_assignment (forall_of_all rfl) hd hassigns, behindMask, behindMask,
    if_neg (by simp [hcookie]), if_neg (by simp [hcookie])]
  intro heq
  have heq := append_cancel_left (List.cons.inj (append_cancel_left (Option.some.inj heq))).2
  by_cases hspaces : 0 < f.spaces
  · rw [(f.takeWhile_value hspaces _).2, (f.takeWhile_value hspaces _).2] at heq
    have hlen := congrArg List.length heq
    simp [value] at hlen
  · have hvalue : ∀ v, f.value v = '"' :: (v ++ '"' :: f.back) := fun v => by
      rw [value, Nat.eq_zero_of_not_pos hspaces]
      rfl
    rw [hvalue, hvalue] at heq
    exact f.fromSpace_words heq

theorem flag_differs (hd : f.delimiter = ':') (hdash : startsWith f.argument ['-'] = true)
    (hspaces : 0 < f.spaces)
    (hsens : isSensitiveKey (trimDashes (f.argument ++ [':'])) = true)
    (hcookie : isCookie f.key = false) :
    redactTextLine (f.line "a".toList) ≠ redactTextLine (f.line "a b".toList) := by
  rw [f.redact_flag (forall_of_all rfl) hd hdash hspaces hsens,
    f.redact_flag (forall_of_all rfl) hd hdash hspaces hsens, behindMask,
    behindMask, if_neg (by simp [hcookie]), if_neg (by simp [hcookie])]
  intro heq
  have heq := append_cancel_left (List.cons.inj (append_cancel_left (Option.some.inj heq))).2
  exact f.fromSpace_words (append_cancel_left heq)

/-- The first word of the string can make the argument sensitive by itself. -/
theorem isSensitiveKey_auth (a : Text) : isSensitiveKey (trimDashes (a ++ ":\"auth".toList)) =
    true := by
  have htrim : trimDashes (a ++ ":\"auth".toList) = trimDashes a ++ ":\"auth".toList := by
    unfold trimDashes
    rw [dropWhile_append]
    split_ifs with h
    · rw [List.isEmpty_iff.mp h]
      rfl
    · rfl
  have hcontains := contains_append_left (p := "auth".toList) (t := ":\"auth".toList) (by decide)
    (((trimDashes a).map Char.toLower).map fun c => if c = '-' then '_' else c)
  have hmem : "auth".toList ∈ logExtraSensitive := by simp [logExtraSensitive]
  unfold isSensitiveKey
  rw [htrim, map_append, map_append]
  rw [Bool.or_eq_true]
  exact .inr (any_eq_true.mpr ⟨_, hmem, hcontains⟩)

/-- A string without spaces before it, whose first word makes the argument a flag. -/
theorem maskArgs_auth (hd : f.delimiter = ':') (hdash : startsWith f.argument ['-'] = true)
    (hspaces : f.spaces = 0) {w z : Text} (hw : ∀ c ∈ w, c.isAlphanum = true ∨ c = ' ')
    (hrest : maskFrom true (' ' :: (w ++ '"' :: f.back)) = z) :
    maskArgs (f.line ("auth ".toList ++ w)) = f.front ++ f.name ++ f.delimiter ::
      ("\"auth".toList ++ z) := by
  have hv : ∀ c ∈ "auth ".toList ++ w, c.isAlphanum = true ∨ c = ' ' := by
    intro c hc
    rcases mem_append.mp hc with hc | hc
    · exact forall_of_all (p := fun c => c.isAlphanum = true ∨
        c = ' ') (t := "auth ".toList) rfl c hc
    · exact hw c hc
  have hvalue : f.value ("auth ".toList ++ w) = "\"auth".toList ++ ' ' :: (w ++ '"' :: f.back) := by
    rw [value, hspaces]
    rfl
  have htake : (f.value ("auth ".toList ++ w)).takeWhile (!isWhitespace ·) = "\"auth".toList := by
    rw [hvalue]
    rfl
  have hfrom : fromSpace (f.value ("auth ".toList ++ w)) = ' ' :: (w ++ '"' :: f.back) := by
    rw [hvalue]
    rfl
  have htoken := f.redactToken_colon hv hd
  have hsens := isSensitiveKey_auth f.argument
  rw [htake, hdash, show ':' :: "\"auth".toList = ":\"auth".toList from rfl, hsens] at htoken
  rw [← hfrom] at hrest
  refine f.maskArgs_line _ ?_ hrest
  rw [htake]
  exact htoken

theorem auth_differs (hd : f.delimiter = ':') (hdash : startsWith f.argument ['-'] = true)
    (hspaces : f.spaces = 0) :
    redactTextLine (f.line "auth b".toList) ≠ redactTextLine (f.line "auth c d".toList) := by
  have hkey : isSensitiveKey (keyOf (f.front ++ f.name)) = true := by
    rw [f.keyOf_name]
    exact f.key_sensitive
  have hquote : ∀ c ∈ redacted, c ≠ '"' ∧ c ≠ '\\' := forall_of_all rfl
  have hauth : ∀ c ∈ "auth ".toList, c ≠ '"' ∧ c ≠ '\\' := forall_of_all rfl
  have hd' : ∀ c ∈ " d".toList, c ≠ '"' ∧ c ≠ '\\' := forall_of_all rfl
  -- the closing quote is masked with the second word
  have hone : redactTextLine (f.line "auth b".toList) =
    some (f.front ++ f.name ++ f.delimiter :: '"' :: redacted) := by
    have hrest := maskFrom_flag (g := [' ']) (c := 'b') (y := '"' :: f.back) (forall_of_all rfl)
      (by decide) (by decide)
      (f.fromSpace_inert (v := "b".toList) (forall_of_all rfl) fun c hc =>
        mem_append_right _ (.tail _ hc))
    have hmask := f.maskArgs_auth hd hdash hspaces (w := "b".toList) (forall_of_all rfl) hrest
    have hplain : ∀ c ∈ "auth ".toList ++ (redacted ++ fromSpace f.back), c ≠ '"' := by
      intro c hc
      rcases mem_append.mp hc with hc | hc
      · exact (hauth c hc).1
      rcases mem_append.mp hc with hc | hc
      · exact (hquote c hc).1
      · exact (f.back_plain c ((dropWhile_suffix _).subset hc)).2.2.2.1
    have hparts := valueParts_open (keyOf (f.front ++ f.name)) hplain
    exact redactTextLine_field hmask (f.line_ascii (forall_of_all rfl)) f.isDelimiter_front
      f.isDelimiter_delimiter hkey hparts
      (cons_ne_nil _ _) (by simp)
  have htwo : redactTextLine (f.line "auth c d".toList) =
      some (f.front ++ f.name ++ f.delimiter :: '"' :: (redacted ++ '"' :: f.back)) := by
    have hrest := maskFrom_flag (g := [' ']) (c := 'c') (y := " d".toList ++ '"' :: f.back)
      (forall_of_all rfl) (by decide) (by decide)
      (f.fromSpace_inert (v := "c d".toList) (forall_of_all rfl) fun c hc =>
        mem_append_right _ (.tail _ hc))
    have hmask := f.maskArgs_auth hd hdash hspaces (w := "c d".toList) (forall_of_all rfl) hrest
    have hplain : ∀ c ∈ "auth ".toList ++ (redacted ++ " d".toList), c ≠ '"' ∧ c ≠ '\\' := by
      intro c hc
      rcases mem_append.mp hc with hc | hc
      · exact hauth c hc
      rcases mem_append.mp hc with hc | hc
      · exact hquote c hc
      · exact hd' c hc
    have hparts := valueParts_string (keyOf (f.front ++ f.name)) hplain f.back
    have hback : ∀ c ∈ '"' :: f.back, isDelimiter c = false := fun c hc =>
      (f.value_chars (v := "b".toList) (forall_of_all rfl) c
        (mem_append_right _ (.tail _ (mem_append_right _ hc)))).2.2
    rw [append_assoc, append_assoc] at hparts
    exact redactTextLine_field hmask (f.line_ascii (forall_of_all rfl)) f.isDelimiter_front
      f.isDelimiter_delimiter hkey hparts
      (cons_ne_nil _ _) hback
  rw [hone, htwo]
  intro heq
  have hlen := congrArg List.length (Option.some.inj heq)
  simp at hlen

end QuotedField

theorem isSecret_one : IsSecret "a".toList :=
  ⟨by decide, forall_of_all rfl, by decide, by decide, by decide⟩

theorem isSecret_two : IsSecret "a b".toList :=
  ⟨by decide, forall_of_all rfl, by decide, by decide, by decide⟩

/-- **What comes out does not depend on the secret exactly when it is hidden.** -/
theorem quoted_hidden_iff (f : QuotedField) :
    (∀ v w, IsSecret v → IsSecret w → redactTextLine (f.line v) = redactTextLine (f.line w)) ↔
    f.Hidden := by
  constructor
  · intro hsame
    have hwords := hsame "a".toList "a b".toList isSecret_one isSecret_two
    have hauth := hsame "auth b".toList "auth c d".toList ⟨by decide,
      forall_of_all rfl, by decide, by decide, by decide⟩
      ⟨by decide, forall_of_all rfl, by decide, by decide, by decide⟩
    unfold QuotedField.Hidden
    rcases f.delimiter_eq with hd | hd
    · rw [hd, if_neg (by decide)]
      by_contra hnot
      push Not at hnot
      obtain ⟨hdash, hkey⟩ := hnot
      have hdash : startsWith f.argument ['-'] = true := by simpa using hdash
      by_cases hspaces : 0 < f.spaces
      · obtain ⟨hsens, hcookie⟩ := hkey hspaces
        exact f.flag_differs hd hdash hspaces (by simpa using hsens) (by simpa using hcookie) hwords
      · exact f.auth_differs hd hdash (Nat.eq_zero_of_not_pos hspaces) hauth
    · rw [hd, if_pos rfl]
      by_contra hnot
      push Not at hnot
      obtain ⟨hassigns, hcookie⟩ := hnot
      exact f.assignment_differs hd hassigns (by simpa using hcookie) hwords
  · intro hhidden v w hv hw
    rcases f.leftAlone_or_of_hidden hhidden with halone
      | ⟨hcookie, ⟨hd, hassigns⟩ | ⟨hd, hdash, hspaces, hsens⟩⟩
    · rw [f.redact_leftAlone hv.2.1 hv.1 halone, f.redact_leftAlone hw.2.1 hw.1 halone]
    · rw [f.redact_assignment hv.2.1 hd hassigns, f.redact_assignment hw.2.1 hd hassigns,
        QuotedField.behindMask, QuotedField.behindMask, if_pos hcookie, if_pos hcookie]
    · rw [f.redact_flag hv.2.1 hd hdash hspaces hsens, f.redact_flag hw.2.1 hd hdash hspaces hsens,
        QuotedField.behindMask, QuotedField.behindMask, if_pos hcookie, if_pos hcookie]

/-- `password="…"`. -/
def passwordField : QuotedField where
  front := []
  key := "password".toList
  quoted := false
  delimiter := '='
  spaces := 0
  back := []
  front_plain := by simp
  front_end := by simp
  key_name := forall_of_all rfl
  key_sensitive := by decide
  delimiter_eq := .inr rfl
  back_plain := by simp

/-- The second word of a password is printed. -/
theorem password_shows : ¬ ∀ (f : QuotedField) (v w : Text), IsSecret v → IsSecret w →
    redactTextLine (f.line v) = redactTextLine (f.line w) := by
  intro hsame
  have hwords := hsame passwordField "a".toList "a b".toList isSecret_one isSecret_two
  have hassigns : passwordField.Assigns := ⟨by decide, forall_of_all rfl⟩
  exact passwordField.assignment_differs rfl hassigns (by decide) hwords

end Thegn.Log
