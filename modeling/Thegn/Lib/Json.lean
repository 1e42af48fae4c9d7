import Thegn.Lib.Text

set_option autoImplicit false

/-! # JSON values, their compact text and a reader

`render esc` writes a value without white space; `esc` says how a character of a string is written.
`parse` reads a JSON text: strings with all escapes, white space between tokens, and numbers (of one
with a fraction or an exponent nothing more is kept). The reader inverts the writer for every `esc`
that writes each character in a way the reader understands (`parse_render`).
-/

namespace Thegn

open List Option

inductive Json
  | null
  | bool (b : Bool)
  | int (n : Int)
  /-- A number that is not written as an integer. -/
  | real
  | str (s : Text)
  | arr (items : List Json)
  | obj (fields : List (Text × Json))

namespace Json

open Text

/-! ## Writing -/

def ofInt : Int → Text
  | .ofNat n => ofNat n
  | .negSucc n => '-' :: ofNat (n + 1)

/-- A string between quotes. -/
def quote (esc : Char → Text) (s : Text) : Text := '"' :: s.flatMap esc ++ ['"']

mutual

def render (esc : Char → Text) : Json → Text
  | .null => "null".toList
  | .bool true => "true".toList
  | .bool false => "false".toList
  | .int n => ofInt n
  | .real => "0e0".toList
  | .str s => quote esc s
  | .arr items => '[' :: renderItems esc items ++ [']']
  | .obj fields => '{' :: renderFields esc fields ++ ['}']

def renderItems (esc : Char → Text) : List Json → Text
  | [] => []
  | [v] => render esc v
  | v :: w :: items => render esc v ++ ',' :: renderItems esc (w :: items)

def renderFields (esc : Char → Text) : List (Text × Json) → Text
  | [] => []
  | [(k, v)] => quote esc k ++ ':' :: render esc v
  | (k, v) :: f :: fields =>
    quote esc k ++ ':' :: render esc v ++ ',' :: renderFields esc (f :: fields)

end

/-! ## Reading -/

/-- White space between tokens. -/
def isWs (c : Char) : Bool := c == ' ' || c == '\t' || c == '\n' || c == '\r'

def skipWs (t : Text) : Text := t.dropWhile isWs

def hexValue (c : Char) : Option Nat :=
  if c.isDigit then some (c.toNat - '0'.toNat)
  else if 'a' ≤ c ∧ c ≤ 'f' then some (c.toNat - 'a'.toNat + 10)
  else if 'A' ≤ c ∧ c ≤ 'F' then some (c.toNat - 'A'.toNat + 10)
  else none

/-- Four hexadecimal digits. -/
def takeHex : Text → Option (Nat × Text)
  | a :: b :: c :: d :: rest => do
      let a ← hexValue a
      let b ← hexValue b
      let c ← hexValue c
      let d ← hexValue d
      some (((a * 16 + b) * 16 + c) * 16 + d, rest)
  | _ => none

/-- The escapes of one letter. -/
def escapeOf : Char → Option Char
  | '"' => some '"'
  | '\\' => some '\\'
  | '/' => some '/'
  | 'b' => some '\x08'
  | 'f' => some '\x0c'
  | 'n' => some '\n'
  | 'r' => some '\r'
  | 't' => some '\t'
  | _ => none

/-- A code unit after `\u`; a high surrogate needs a low one after it. -/
def parseUnit (t : Text) : Option (Char × Text) := do
  let (u, rest) ← takeHex t
  if 0xd800 ≤ u ∧ u < 0xdc00 then
    match rest with
    | '\\' :: 'u' :: rest => do
        let (l, rest) ← takeHex rest
        if 0xdc00 ≤ l ∧ l < 0xe000 then
          some (Char.ofNat (0x10000 + (u - 0xd800) * 0x400 + (l - 0xdc00)), rest)
        else none
    | _ => none
  else if 0xdc00 ≤ u ∧ u < 0xe000 then none
  else some (Char.ofNat u, rest)

/-- One character of a string, escaped or not. -/
def parseChar : Text → Option (Char × Text)
  | [] => none
  | '\\' :: 'u' :: rest => parseUnit rest
  | '\\' :: e :: rest => (escapeOf e).map fun c => (c, rest)
  | c :: rest => if c.toNat < 32 ∨ c = '\\' then none else some (c, rest)

/-- The rest of a string after its opening quote. -/
def parseString : Nat → Text → Option (Text × Text)
  | 0, _ => none
  | _ + 1, '"' :: rest => some ([], rest)
  | n + 1, t => do
      let (c, rest) ← parseChar t
      let (s, rest) ← parseString n rest
      some (c :: s, rest)

/-- The text starts with a digit, or goes on as a number that is no integer. -/
def numberGoesOn (t : Text) : Bool :=
  t.head?.any fun c => c.isDigit || c == '.' || c == 'e' || c == 'E'

/-- Digits, without a leading zero. -/
def parseDigits (t : Text) : Option (Nat × Text) :=
  let digits := t.takeWhile Char.isDigit
  let rest := t.dropWhile Char.isDigit
  if digits = [] ∨ (digits.head? = some '0' ∧ digits ≠ ['0']) ∨ numberGoesOn rest then none
  else some (Nat.ofDigitChars 10 digits 0, rest)

def parseInt : Text → Option (Int × Text)
  | '-' :: rest => (parseDigits rest).map fun r => (-(r.1 : Int), r.2)
  | t => (parseDigits t).map fun r => (r.1, r.2)

/-- At least one digit. -/
def skipDigits (t : Text) : Option Text :=
  if t.takeWhile Char.isDigit = [] then none else some (t.dropWhile Char.isDigit)

def skipExponent : Text → Option Text
  | 'e' :: '+' :: t | 'e' :: '-' :: t | 'E' :: '+' :: t | 'E' :: '-' :: t | 'e' :: t | 'E' :: t =>
    skipDigits t
  | t => some t

/-- A number that is no integer: one with a fraction, an exponent or both. -/
def skipReal (t : Text) : Option Text :=
  let t := (stripPrefix ['-'] t).getD t
  let digits := t.takeWhile Char.isDigit
  if digits = [] ∨ (digits.head? = some '0' ∧ digits ≠ ['0']) then none
  else
    match t.dropWhile Char.isDigit with
    | '.' :: rest => (skipDigits rest).bind skipExponent
    | rest => skipExponent rest

/-- A literal or a number. -/
def parseAtom (t : Text) : Option (Json × Text) :=
  match stripPrefix "null".toList t, stripPrefix "true".toList t, stripPrefix "false".toList t with
  | some rest, _, _ => some (.null, rest)
  | _, some rest, _ => some (.bool true, rest)
  | _, _, some rest => some (.bool false, rest)
  | none, none, none => ((parseInt t).map fun r => (.int r.1, r.2)).or
      ((skipReal t).map fun rest => (.real, rest))

mutual

def parseValue : Nat → Text → Option (Json × Text)
  | 0, _ => none
  | n + 1, t =>
    match skipWs t with
    | '"' :: rest => (parseString (rest.length + 1) rest).map fun r => (.str r.1, r.2)
    | '[' :: rest =>
      match skipWs rest with
      | ']' :: rest => some (.arr [], rest)
      | rest => (parseItems n rest).map fun r => (.arr r.1, r.2)
    | '{' :: rest =>
      match skipWs rest with
      | '}' :: rest => some (.obj [], rest)
      | rest => (parseFields n rest).map fun r => (.obj r.1, r.2)
    | t => parseAtom t

def parseItems : Nat → Text → Option (List Json × Text)
  | 0, _ => none
  | n + 1, t => do
      let (v, rest) ← parseValue n t
      match skipWs rest with
      | ',' :: rest =>
        let (vs, rest) ← parseItems n rest
        some (v :: vs, rest)
      | ']' :: rest => some ([v], rest)
      | _ => none

def parseFields : Nat → Text → Option (List (Text × Json) × Text)
  | 0, _ => none
  | n + 1, t =>
    match skipWs t with
    | '"' :: rest => do
        let (k, rest) ← parseString (rest.length + 1) rest
        match skipWs rest with
        | ':' :: rest =>
          let (v, rest) ← parseValue n rest
          match skipWs rest with
          | ',' :: rest =>
            let (fs, rest) ← parseFields n rest
            some ((k, v) :: fs, rest)
          | '}' :: rest => some ([(k, v)], rest)
          | _ => none
        | _ => none
    | _ => none

end

/-- A text that is one JSON value. -/
def parse (t : Text) : Option Json :=
  match parseValue (t.length + 1) t with
  | some (v, rest) => if skipWs rest = [] then some v else none
  | none => none

/-! ## The reader inverts the writer -/

/-- The reader understands each character as `esc` writes it. -/
structure Readable (esc : Char → Text) : Prop where
  parses : ∀ c rest, parseChar (esc c ++ rest) = some (c, rest)
  opens : ∀ c, ∃ d r, esc c = d :: r ∧ d ≠ '"'

variable {esc : Char → Text}

theorem Readable.length_le (h : Readable esc) (s : Text) : s.length ≤ (s.flatMap esc).length := by
  induction s with
  | nil => exact le_rfl
  | cons c s ih =>
    obtain ⟨d, r, hd, _⟩ := h.opens c
    rw [List.flatMap_cons, length_append, length_cons, hd, length_cons]
    omega

/-- The body of a string, with a call for each of its characters. -/
theorem parseString_flatMap (h : Readable esc) {n : Nat} {s : Text} (hn : s.length < n)
    (rest : Text) : parseString n (s.flatMap esc ++ '"' :: rest) = some (s, rest) := by
  induction s generalizing n with
  | nil =>
    cases n with
    | zero => exact absurd hn (Nat.not_lt_zero _)
    | succ n => rfl
  | cons c s ih =>
    cases n with
    | zero => exact absurd hn (Nat.not_lt_zero _)
    | succ n =>
      obtain ⟨d, r, hd, hquote⟩ := h.opens c
      have hchar := h.parses c (s.flatMap esc ++ '"' :: rest)
      have hrest := ih (n := n) (by rw [length_cons] at hn; omega)
      rw [List.flatMap_cons, append_assoc]
      rw [hd, cons_append] at hchar ⊢
      rw [parseString, hchar]
      · simp only [bind_eq_bind, bind_some, hrest]
      · intro rest' heq
        exact hquote (List.cons.inj heq).1

theorem skipWs_cons {c : Char} (hc : isWs c = false) (t : Text) : skipWs (c :: t) = c :: t := by
  rw [skipWs, dropWhile_cons_of_neg]
  rw [hc]
  exact Bool.false_ne_true

/-! ### Integers -/

theorem toDigits_head {n : Nat} (hn : 0 < n) : (Nat.toDigits 10 n).head? ≠ some '0' := by
  induction n using Nat.strongRecOn with
  | ind n ih =>
    by_cases hlt : n < 10
    · rw [Nat.toDigits_of_lt_base hlt]
      interval_cases n <;> decide
    · rw [Nat.toDigits_of_base_le (by omega) (by omega), List.head?_append]
      have hhead := ih (n / 10) (by omega) (by omega)
      cases hd : (Nat.toDigits 10 (n / 10)).head? with
      | none =>
        have hne : Nat.toDigits 10 (n / 10) ≠ [] := Nat.toDigits_ne_nil
        exact absurd (List.head?_eq_none_iff.mp hd) hne
      | some d =>
        rw [hd] at hhead
        exact hhead

theorem parseDigits_ofNat (n : Nat) {rest : Text} (hrest : numberGoesOn rest = false) :
    parseDigits (ofNat n ++ rest) = some (n, rest) := by
  have hdigits : ∀ c ∈ ofNat n, c.isDigit = true := fun c hc => isDigit_of_mem_ofNat hc
  have hstop : ∀ c, rest.head? = some c → c.isDigit = false := by
    intro c hc
    rw [numberGoesOn, hc, any_some] at hrest
    cases hd : c.isDigit with
    | false => rfl
    | true =>
      rw [hd] at hrest
      simp at hrest
  have htake : (ofNat n ++ rest).takeWhile Char.isDigit = ofNat n := by
    rw [takeWhile_append_of_pos hdigits]
    cases rest with
    | nil => simp
    | cons c rest =>
      rw [takeWhile_cons_of_neg (by rw [hstop c rfl]; exact Bool.false_ne_true), append_nil]
  have hdrop : (ofNat n ++ rest).dropWhile Char.isDigit = rest := by
    rw [dropWhile_append_of_pos hdigits]
    cases rest with
    | nil => rfl
    | cons c rest =>
      rw [dropWhile_cons_of_neg (by rw [hstop c rfl]; exact Bool.false_ne_true)]
  have hzero : ¬ ((ofNat n).head? = some '0' ∧ ofNat n ≠ ['0']) := by
    rintro ⟨hhead, hne⟩
    rcases Nat.eq_zero_or_pos n with rfl | hpos
    · exact hne (Nat.toDigits_zero 10)
    · exact toDigits_head hpos hhead
  unfold parseDigits
  simp only [htake, hdrop]
  rw [if_neg (by simp [hrest, ofNat_ne_nil, hzero]), ofNat, Nat.ofDigitChars_toDigits]
  · decide
  · decide

theorem ofNat_cons (n : Nat) : ∃ c r, ofNat n = c :: r ∧ c.isDigit = true := by
  cases hn : ofNat n with
  | nil => exact absurd hn (ofNat_ne_nil n)
  | cons c r =>
    refine ⟨c, r, rfl, isDigit_of_mem_ofNat (n := n) ?_⟩
    rw [hn]
    exact .head _

/-- The first character of an integer. -/
def IntHead (c : Char) : Prop := c.isDigit = true ∨ c = '-'

theorem IntHead.ne {c d : Char} (hc : IntHead c) (hd : d.isDigit = false) (hminus : d ≠ '-') :
    c ≠ d := by
  rintro rfl
  rcases hc with hc | hc
  · rw [hd] at hc
    cases hc
  · exact hminus hc

theorem IntHead.isWs {c : Char} (hc : IntHead c) : isWs c = false := by
  simp [Json.isWs, hc.ne (d := ' ') (by decide) (by decide),
    hc.ne (d := '\t') (by decide) (by decide),
    hc.ne (d := '\n') (by decide) (by decide), hc.ne (d := '\r') (by decide) (by decide)]

theorem ofInt_cons (n : Int) : ∃ c r, ofInt n = c :: r ∧ IntHead c := by
  cases n with
  | ofNat n =>
    obtain ⟨c, r, hr, hc⟩ := ofNat_cons n
    exact ⟨c, r, hr, .inl hc⟩
  | negSucc n => exact ⟨'-', _, rfl, .inr rfl⟩

theorem parseInt_ofInt (n : Int) {rest : Text} (hrest : numberGoesOn rest = false) :
    parseInt (ofInt n ++ rest) = some (n, rest) := by
  cases n with
  | ofNat n =>
    have hread := parseDigits_ofNat n hrest
    obtain ⟨c, r, hr, hc⟩ := ofNat_cons n
    rw [ofInt]
    rw [hr, cons_append] at hread ⊢
    rw [parseInt, hread]
    · rfl
    · intro rest' heq
      rw [(List.cons.inj heq).1] at hc
      exact absurd hc (by decide)
  | negSucc n =>
    rw [ofInt, cons_append, parseInt, parseDigits_ofNat (n + 1) hrest]
    rfl

/-! ### Values -/

theorem parseAtom_null (rest : Text) : parseAtom ("null".toList ++ rest) = some (.null, rest) := by
  rw [parseAtom, stripPrefix_append]

theorem parseAtom_true (rest : Text) :
    parseAtom ("true".toList ++ rest) = some (.bool true, rest) := by
  have hnull : stripPrefix "null".toList ("true".toList ++ rest) = none := rfl
  rw [parseAtom, hnull, stripPrefix_append]

theorem parseAtom_false (rest : Text) :
    parseAtom ("false".toList ++ rest) = some (.bool false, rest) := by
  have hnull : stripPrefix "null".toList ("false".toList ++ rest) = none := rfl
  have htrue : stripPrefix "true".toList ("false".toList ++ rest) = none := rfl
  rw [parseAtom, hnull, htrue, stripPrefix_append]

theorem parseAtom_ofInt (n : Int) {rest : Text} (hrest : numberGoesOn rest = false) :
    parseAtom (ofInt n ++ rest) = some (.int n, rest) := by
  obtain ⟨c, r, hr, hc⟩ := ofInt_cons n
  have hno : ∀ d p, d.isDigit = false → d ≠ '-' →
    stripPrefix (d :: p) (ofInt n ++ rest) = none := by
    intro d p hd hminus
    rw [stripPrefix_eq_none, hr, cons_append, startsWith, isPrefixOf_cons_cons,
      beq_eq_false_iff_ne.mpr (hc.ne hd hminus).symm, Bool.false_and]
  have hnull := hno 'n' "ull".toList (by decide) (by decide)
  have htrue := hno 't' "rue".toList (by decide) (by decide)
  have hfalse := hno 'f' "alse".toList (by decide) (by decide)
  unfold parseAtom
  rw [show "null".toList = 'n' :: "ull".toList from rfl, hnull,
    show "true".toList = 't' :: "rue".toList from rfl, htrue,
    show "false".toList = 'f' :: "alse".toList from rfl, hfalse]
  simp only [parseInt_ofInt n hrest, map_some, Option.some_or]

theorem parseAtom_real {rest : Text} (hrest : numberGoesOn rest = false) :
    parseAtom ("0e0".toList ++ rest) = some (.real, rest) := by
  have hdrop : rest.dropWhile Char.isDigit = rest := by
    cases rest with
    | nil => rfl
    | cons c rest =>
      simp only [numberGoesOn, head?_cons, any_some, Bool.or_eq_false_iff] at hrest
      exact dropWhile_cons_of_neg (by simp [hrest])
  change (some (('0' :: rest).dropWhile Char.isDigit)).map _ = _
  rw [dropWhile_cons_of_pos rfl, hdrop]
  rfl

/-- A text that opens no string, array or object is read as an atom. -/
theorem parseValue_atom {n : Nat} {c : Char} {t : Text} (hws : isWs c = false)
    (hstr : c ≠ '"') (harr : c ≠ '[') (hobj : c ≠ '{') :
    parseValue (n + 1) (c :: t) = parseAtom (c :: t) := by
  rw [parseValue, skipWs_cons hws]
  split
  · rename_i heq
    exact absurd (List.cons.inj heq).1 hstr
  · rename_i heq
    exact absurd (List.cons.inj heq).1 harr
  · rename_i heq
    exact absurd (List.cons.inj heq).1 hobj
  · rfl

theorem parseValue_ofInt {n : Nat} (z : Int) {rest : Text} (hrest : numberGoesOn rest = false) :
    parseValue (n + 1) (ofInt z ++ rest) = some (.int z, rest) := by
  rw [← parseAtom_ofInt z hrest]
  obtain ⟨c, r, hr, hc⟩ := ofInt_cons z
  rw [hr, cons_append]
  exact parseValue_atom hc.isWs (hc.ne (by decide) (by decide)) (hc.ne (by decide) (by decide))
    (hc.ne (by decide) (by decide))

/-- A value is written with a first character that is no white space and closes nothing. -/
theorem render_cons (esc : Char → Text) (v : Json) :
    ∃ c r, render esc v = c :: r ∧ isWs c = false ∧ c ≠ ']' := by
  cases v with
  | null => exact ⟨'n', _, rfl, by decide, by decide⟩
  | bool b =>
    cases b with
    | false => exact ⟨'f', _, rfl, by decide, by decide⟩
    | true => exact ⟨'t', _, rfl, by decide, by decide⟩
  | int n =>
    obtain ⟨c, r, hr, hc⟩ := ofInt_cons n
    rw [render]
    exact ⟨c, r, hr, hc.isWs, hc.ne (by decide) (by decide)⟩
  | real => exact ⟨'0', _, rfl, by decide, by decide⟩
  | str s =>
    rw [render, quote]
    exact ⟨'"', _, rfl, by decide, by decide⟩
  | arr items =>
    rw [render]
    exact ⟨'[', _, rfl, by decide, by decide⟩
  | obj fields =>
    rw [render]
    exact ⟨'{', _, rfl, by decide, by decide⟩

theorem renderItems_cons (esc : Char → Text) (v : Json) (items : List Json) :
    ∃ c r, renderItems esc (v :: items) = c :: r ∧ isWs c = false ∧ c ≠ ']' := by
  obtain ⟨c, r, hr, hws, hclose⟩ := render_cons esc v
  cases items with
  | nil =>
    rw [renderItems]
    exact ⟨c, r, hr, hws, hclose⟩
  | cons w items =>
    rw [renderItems, hr, cons_append]
    exact ⟨c, _, rfl, hws, hclose⟩

theorem renderFields_cons (esc : Char → Text) (f : Text × Json) (fields : List (Text × Json)) :
    ∃ r, renderFields esc (f :: fields) = '"' :: r := by
  obtain ⟨k, v⟩ := f
  cases fields with
  | nil =>
    rw [renderFields, quote]
    exact ⟨_, rfl⟩
  | cons f fields =>
    rw [renderFields, quote]
    exact ⟨_, rfl⟩

/-- The body of a string is read with the fuel the reader gives it. -/
theorem parseString_quote (h : Readable esc) (s rest : Text) :
    parseString ((s.flatMap esc ++ '"' :: rest).length + 1) (s.flatMap esc ++ '"' :: rest) =
      some (s, rest) := by
  apply parseString_flatMap h
  have hlen := h.length_le s
  rw [length_append]
  omega

mutual

/-- A written value is read back, with enough fuel and before a text that does not go on as a
number. -/
theorem parseValue_render (h : Readable esc) :
    ∀ (v : Json) {n : Nat} (rest : Text), (render esc v).length < n → numberGoesOn rest = false →
      parseValue n (render esc v ++ rest) = some (v, rest)
  | v, 0, _, hn, _ => absurd hn (Nat.not_lt_zero _)
  | .null, n + 1, rest, hn, hrest => by
    rw [render, ← parseAtom_null rest]
    exact parseValue_atom (c := 'n') (by decide) (by decide) (by decide) (by decide)
  | .bool true, n + 1, rest, hn, hrest => by
    rw [render, ← parseAtom_true rest]
    exact parseValue_atom (c := 't') (by decide) (by decide) (by decide) (by decide)
  | .bool false, n + 1, rest, hn, hrest => by
    rw [render, ← parseAtom_false rest]
    exact parseValue_atom (c := 'f') (by decide) (by decide) (by decide) (by decide)
  | .int z, n + 1, rest, hn, hrest => by
    rw [render]
    exact parseValue_ofInt z hrest
  | .real, n + 1, rest, hn, hrest => by
    rw [render, ← parseAtom_real hrest]
    exact parseValue_atom (c := '0') (by decide) (by decide) (by decide) (by decide)
  | .str s, n + 1, rest, hn, hrest => by
    rw [render, quote, append_assoc, cons_append, parseValue, skipWs_cons (by decide),
      singleton_append]
    simp only [parseString_quote h, map_some]
  | .arr [], n + 1, rest, hn, hrest => by
    rw [render, renderItems]
    rfl
  | .arr (v :: items), n + 1, rest, hn, hrest => by
    have hread := parseItems_render h v items (n := n) rest (by
      rw [render, length_append, length_cons] at hn
      simp only [length_singleton] at hn
      omega)
    obtain ⟨c, r, hr, hws, hclose⟩ := renderItems_cons esc v items
    rw [render, append_assoc, cons_append, parseValue, skipWs_cons (by decide), singleton_append]
    rw [hr, cons_append] at hread ⊢
    simp only [skipWs_cons hws]
    split
    · rename_i heq
      exact absurd (List.cons.inj heq).1 hclose
    · rw [hread]
      rfl
  | .obj [], n + 1, rest, hn, hrest => by
    rw [render, renderFields]
    rfl
  | .obj (f :: fields), n + 1, rest, hn, hrest => by
    have hread := parseFields_render h f fields (n := n) rest (by
      rw [render, length_append, length_cons] at hn
      simp only [length_singleton] at hn
      omega)
    obtain ⟨r, hr⟩ := renderFields_cons esc f fields
    rw [render, append_assoc, cons_append, parseValue, skipWs_cons (by decide), singleton_append]
    rw [hr, cons_append] at hread ⊢
    simp only [skipWs_cons (show isWs '"' = false by decide)]
    split
    · rename_i heq
      exact absurd (List.cons.inj heq).1 (by decide)
    · rw [hread]
      rfl

theorem parseItems_render (h : Readable esc) :
    ∀ (v : Json) (items : List Json) {n : Nat} (rest : Text),
      (renderItems esc (v :: items)).length + 1 < n →
      parseItems n (renderItems esc (v :: items) ++ ']' :: rest) = some (v :: items, rest)
  | _, _, 0, _, hn => absurd hn (Nat.not_lt_zero _)
  | v, [], n + 1, rest, hn => by
    rw [renderItems] at hn ⊢
    rw [parseItems, parseValue_render h v (n := n) _ (by omega) (by rfl)]
    rfl
  | v, w :: items, n + 1, rest, hn => by
    rw [renderItems, length_append, length_cons] at hn
    rw [renderItems, append_assoc, cons_append, parseItems,
      parseValue_render h v (n := n) _ (by omega) (by rfl)]
    simp only [bind_eq_bind, bind_some, skipWs_cons (show isWs ',' = false by decide),
      parseItems_render h w items (n := n) rest (by omega)]

theorem parseFields_render (h : Readable esc) :
    ∀ (f : Text × Json) (fields : List (Text × Json)) {n : Nat} (rest : Text),
      (renderFields esc (f :: fields)).length + 1 < n →
      parseFields n (renderFields esc (f :: fields) ++ '}' :: rest) = some (f :: fields, rest)
  | _, _, 0, _, hn => absurd hn (Nat.not_lt_zero _)
  | (k, v), [], n + 1, rest, hn => by
    rw [renderFields, length_append, length_cons] at hn
    rw [renderFields, quote, append_assoc, append_assoc, cons_append, parseFields,
      skipWs_cons (by decide), singleton_append, cons_append]
    simp only [parseString_quote h, bind_eq_bind, bind_some,
      skipWs_cons (show isWs ':' = false by decide),
      parseValue_render h v (n := n) ('}' :: rest) (by omega) rfl,
      skipWs_cons (show isWs '}' = false by decide)]
  | (k, v), f :: fields, n + 1, rest, hn => by
    rw [renderFields, length_append, length_append, length_cons, length_cons] at hn
    rw [renderFields, quote, append_assoc, append_assoc, append_assoc,
      cons_append, parseFields, skipWs_cons (by decide), singleton_append, cons_append]
    simp only [parseString_quote h, bind_eq_bind, bind_some, cons_append,
      skipWs_cons (show isWs ':' = false by decide),
      parseValue_render h v (n := n) (',' :: (renderFields esc (f :: fields) ++ '}' :: rest))
        (by omega) rfl,
      skipWs_cons (show isWs ',' = false by decide),
      parseFields_render h f fields (n := n) rest (by omega)]

end

/-- White space before a value is skipped. -/
theorem parseValue_ws {c : Char} (hc : isWs c = true) (n : Nat) (t : Text) :
    parseValue n (c :: t) = parseValue n t := by
  cases n with
  | zero => rfl
  | succ n =>
    have hskip : skipWs (c :: t) = skipWs t := dropWhile_cons_of_pos hc
    rw [parseValue, parseValue, hskip]

/-- **A written value is read back.** -/
theorem parse_render (h : Readable esc) (v : Json) : parse (render esc v) = some v := by
  have hread := parseValue_render h v (n := (render esc v).length + 1) [] (Nat.lt_succ_self _) rfl
  rw [append_nil] at hread
  rw [parse, hread]
  rfl

/-- It is also read from a line of its own. -/
theorem parse_render_line (h : Readable esc) (v : Json) :
    parse ('\n' :: (render esc v ++ ['\n'])) = some v := by
  have hread := parseValue_render h v (n := ('\n' :: (render esc v ++ ['\n'])).length + 1) ['\n']
    (by rw [length_cons, length_append]; omega) rfl
  rw [parse, parseValue_ws rfl, hread]
  rfl

/-! ## The characters of a text -/

/-- A character the writer adds around the strings of a value. -/
def Structural (c : Char) : Prop :=
  c.isDigit = true ∨ c ∈ ['"', '[', ']', '{', '}', ',', ':', '-', 'n', 'u', 'l', 't', 'r', 'e', 'f',
    'a', 's']

instance : DecidablePred Structural := fun c =>
  inferInstanceAs (Decidable (c.isDigit = true ∨
    c ∈ ['"', '[', ']', '{', '}', ',', ':', '-', 'n', 'u', 'l', 't', 'r', 'e', 'f', 'a', 's']))

mutual

/-- The strings of a value, the keys of its objects included. -/
def strings : Json → List Text
  | .null => []
  | .bool _ => []
  | .int _ => []
  | .real => []
  | .str s => [s]
  | .arr items => stringsItems items
  | .obj fields => stringsFields fields

def stringsItems : List Json → List Text
  | [] => []
  | v :: items => strings v ++ stringsItems items

def stringsFields : List (Text × Json) → List Text
  | [] => []
  | (k, v) :: fields => k :: (strings v ++ stringsFields fields)

end

section Characters

variable {P : Char → Prop}

theorem structural_null : ∀ d ∈ "null".toList, Structural d := by simp [Structural]

theorem structural_true : ∀ d ∈ "true".toList, Structural d := by simp [Structural]

theorem structural_false : ∀ d ∈ "false".toList, Structural d := by simp [Structural]

theorem structural_real : ∀ d ∈ "0e0".toList, Structural d := by simp [Structural]

theorem structural_of_mem_ofInt {n : Int} {d : Char} (hd : d ∈ ofInt n) : Structural d := by
  cases n with
  | ofNat n => exact .inl (isDigit_of_mem_ofNat hd)
  | negSucc n =>
    rcases mem_cons.mp hd with rfl | hd
    · decide
    · exact .inl (isDigit_of_mem_ofNat hd)

theorem forall_mem_quote (hstruct : ∀ d, Structural d → P d) {s : Text}
    (hesc : ∀ c ∈ s, ∀ d ∈ esc c, P d) : ∀ d ∈ quote esc s, P d := by
  intro d hd
  rw [quote, cons_append, mem_cons, mem_append, mem_flatMap, mem_singleton] at hd
  rcases hd with rfl | ⟨c, hc, hd⟩ | rfl
  · exact hstruct _ (by decide)
  · exact hesc c hc d hd
  · exact hstruct _ (by decide)

mutual

/-- What holds of the characters the writer adds and of every escape holds of the whole text. -/
theorem forall_mem_render (hstruct : ∀ d, Structural d → P d) :
    ∀ v : Json, (∀ s ∈ strings v, ∀ c ∈ s, ∀ d ∈ esc c, P d) → ∀ d ∈ render esc v, P d
  | .null, _, d, hd => by
    rw [render] at hd
    exact hstruct d (structural_null d hd)
  | .bool true, _, d, hd => by
    rw [render] at hd
    exact hstruct d (structural_true d hd)
  | .bool false, _, d, hd => by
    rw [render] at hd
    exact hstruct d (structural_false d hd)
  | .int n, _, d, hd => hstruct d (by rw [render] at hd; exact structural_of_mem_ofInt hd)
  | .real, _, d, hd => by
    rw [render] at hd
    exact hstruct d (structural_real d hd)
  | .str s, h, d, hd => by
    rw [render] at hd
    exact forall_mem_quote hstruct (h s (by rw [strings]; exact mem_singleton_self s)) d hd
  | .arr items, h, d, hd => by
    rw [render, cons_append, mem_cons, mem_append, mem_singleton] at hd
    rw [strings] at h
    rcases hd with rfl | hd | rfl
    · exact hstruct _ (by decide)
    · exact forall_mem_renderItems hstruct items h d hd
    · exact hstruct _ (by decide)
  | .obj fields, h, d, hd => by
    rw [render, cons_append, mem_cons, mem_append, mem_singleton] at hd
    rw [strings] at h
    rcases hd with rfl | hd | rfl
    · exact hstruct _ (by decide)
    · exact forall_mem_renderFields hstruct fields h d hd
    · exact hstruct _ (by decide)

theorem forall_mem_renderItems (hstruct : ∀ d, Structural d → P d) :
    ∀ items : List Json, (∀ s ∈ stringsItems items, ∀ c ∈ s, ∀ d ∈ esc c, P d) →
      ∀ d ∈ renderItems esc items, P d
  | [], _, d, hd => by
    rw [renderItems] at hd
    exact absurd hd not_mem_nil
  | [v], h, d, hd => by
    rw [renderItems] at hd
    rw [stringsItems, stringsItems, append_nil] at h
    exact forall_mem_render hstruct v h d hd
  | v :: w :: items, h, d, hd => by
    rw [renderItems, mem_append, mem_cons] at hd
    rw [stringsItems, forall_mem_append] at h
    rcases hd with hd | rfl | hd
    · exact forall_mem_render hstruct v h.1 d hd
    · exact hstruct _ (by decide)
    · exact forall_mem_renderItems hstruct (w :: items) h.2 d hd

theorem forall_mem_renderFields (hstruct : ∀ d, Structural d → P d) :
    ∀ fields : List (Text × Json), (∀ s ∈ stringsFields fields, ∀ c ∈ s, ∀ d ∈ esc c, P d) →
      ∀ d ∈ renderFields esc fields, P d
  | [], _, d, hd => by
    rw [renderFields] at hd
    exact absurd hd not_mem_nil
  | [(k, v)], h, d, hd => by
    rw [renderFields, mem_append, mem_cons] at hd
    rw [stringsFields, stringsFields, append_nil, forall_mem_cons] at h
    rcases hd with hd | rfl | hd
    · exact forall_mem_quote hstruct h.1 d hd
    · exact hstruct _ (by decide)
    · exact forall_mem_render hstruct v h.2 d hd
  | (k, v) :: f :: fields, h, d, hd => by
    rw [renderFields, append_assoc, mem_append, cons_append, mem_cons, mem_append, mem_cons] at hd
    rw [stringsFields, forall_mem_cons, forall_mem_append] at h
    rcases hd with hd | rfl | hd | rfl | hd
    · exact forall_mem_quote hstruct h.1 d hd
    · exact hstruct _ (by decide)
    · exact forall_mem_render hstruct v h.2.1 d hd
    · exact hstruct _ (by decide)
    · exact forall_mem_renderFields hstruct (f :: fields) h.2.2 d hd

end

end Characters

/-! ## Replacing characters of a written text -/

section Replacing

variable {f : Char → Text}

theorem flatMap_structural (hf : ∀ c, Structural c → f c = [c]) {t : Text}
    (ht : ∀ c ∈ t, Structural c) : t.flatMap f = t := by
  rw [flatMap_congr fun c hc => hf c (ht c hc)]
  exact flatMap_singleton' t

theorem quote_flatMap (hf : ∀ c, Structural c → f c = [c]) (s : Text) :
    (quote esc s).flatMap f = quote (fun c => (esc c).flatMap f) s := by
  rw [quote, quote, flatMap_append, List.flatMap_cons, hf '"' (by decide), flatMap_assoc,
    flatMap_singleton, hf '"' (by decide), singleton_append]

mutual

/-- Replacing characters of the text is replacing them in each escape, if the replacement keeps what
the writer adds. -/
theorem render_flatMap (hf : ∀ c, Structural c → f c = [c]) :
    ∀ v : Json, (render esc v).flatMap f = render (fun c => (esc c).flatMap f) v
  | .null => by
    rw [render, render]
    exact flatMap_structural hf structural_null
  | .bool true => by
    rw [render, render]
    exact flatMap_structural hf structural_true
  | .bool false => by
    rw [render, render]
    exact flatMap_structural hf structural_false
  | .int n => by
    rw [render, render]
    exact flatMap_structural hf fun c hc => structural_of_mem_ofInt hc
  | .real => by
    rw [render, render]
    exact flatMap_structural hf structural_real
  | .str s => by rw [render, render, quote_flatMap hf]
  | .arr items => by
    rw [render, render, flatMap_append, List.flatMap_cons, hf '[' (by decide),
      flatMap_singleton, hf ']' (by decide), renderItems_flatMap hf items, singleton_append]
  | .obj fields => by
    rw [render, render, flatMap_append, List.flatMap_cons, hf '{' (by decide),
      flatMap_singleton, hf '}' (by decide), renderFields_flatMap hf fields, singleton_append]

theorem renderItems_flatMap (hf : ∀ c, Structural c → f c = [c]) :
    ∀ items : List Json,
      (renderItems esc items).flatMap f = renderItems (fun c => (esc c).flatMap f) items
  | [] => by rw [renderItems, renderItems, flatMap_nil]
  | [v] => by rw [renderItems, renderItems, render_flatMap hf v]
  | v :: w :: items => by
    rw [renderItems, renderItems, flatMap_append, List.flatMap_cons, hf ',' (by decide),
      render_flatMap hf v, renderItems_flatMap hf (w :: items), singleton_append]

theorem renderFields_flatMap (hf : ∀ c, Structural c → f c = [c]) :
    ∀ fields : List (Text × Json),
      (renderFields esc fields).flatMap f = renderFields (fun c => (esc c).flatMap f) fields
  | [] => by rw [renderFields, renderFields, flatMap_nil]
  | [(k, v)] => by
    rw [renderFields, renderFields, flatMap_append, List.flatMap_cons, hf ':' (by decide),
      quote_flatMap hf, render_flatMap hf v, singleton_append]
  | (k, v) :: g :: fields => by
    rw [renderFields, renderFields, flatMap_append, flatMap_append, List.flatMap_cons,
      List.flatMap_cons, hf ':' (by decide), hf ',' (by decide), quote_flatMap hf,
      render_flatMap hf v, renderFields_flatMap hf (g :: fields), singleton_append,
      singleton_append]

end

end Replacing

end Json

end Thegn
